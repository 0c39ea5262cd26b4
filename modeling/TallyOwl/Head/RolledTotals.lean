import Mathlib.Data.Multiset.ZeroCons
import TallyOwl.Head.Increase

/-! What a downsample pass keeps of the points of one series in one window (`rollup.rs`): when the row that it writes
carries their totals. -/
namespace TallyOwl.Rollup
open Lib List OrderedMap
open Locate (wrapI64)

/-! A list of counts is read back as it was written. -/

theorem parseOne_toDigits {n : Nat} (fits : n < 2 ^ 64) : parseOne (Nat.toDigits 10 n) = n := by
  have digits : (Nat.toDigits 10 n).all Char.isDigit = true := all_eq_true.mpr fun c inside =>
    Nat.isDigit_of_mem_toDigits (by omega) (by omega) inside
  have unsigned : (Nat.toDigits 10 n).head? ≠ some '+' := by
    intro plus
    have digit := Nat.isDigit_of_mem_toDigits (b := 10) (n := n) (by omega) (by omega) (mem_of_head? plus)
    revert digit
    decide
  have value : (Nat.toDigits 10 n).foldl (fun n c => n * 10 + (c.toNat - '0'.toNat)) 0 = n := by
    have same := Nat.ofDigitChars_toDigits (b := 10) (n := n) (by omega) (by omega)
    rw [Nat.ofDigitChars_eq_foldl] at same
    simpa only [Nat.mul_comm 10] using same
  simp only [parseOne, if_neg unsigned, if_pos (And.intro Nat.toDigits_ne_nil digits), value, if_pos fits]

theorem parseUnsigned_join {counts : List Nat} (fit : ∀ n ∈ counts, n < 2 ^ 64) :
    parseUnsigned (joinUnsigned counts) = counts := by
  have texts (n : Nat) : (toString n).toList = Nat.toDigits 10 n := by simp
  have comma : ",".toList = [','] := by decide
  unfold parseUnsigned joinUnsigned
  rw [String.toList_intercalate, comma, map_map]
  cases counts with
  | nil => rfl
  | cons first rest =>
    rw [splitOn_intercalate]
    · rw [filter_eq_self.mpr, map_map]
      · refine (map_congr_left fun n inside => ?_).trans (map_id _)
        rw [Function.comp_apply, Function.comp_apply, texts, parseOne_toDigits (fit n inside), id]
      · intro part inside
        obtain ⟨n, -, rfl⟩ := mem_map.mp inside
        simp
    · intro part inside comma
      obtain ⟨n, -, rfl⟩ := mem_map.mp inside
      rw [Function.comp_apply, texts] at comma
      have digit := Nat.isDigit_of_mem_toDigits (b := 10) (n := n) (by omega) (by omega) comma
      revert digit
      decide
    · simp

theorem parseOne_lt (part : List Char) : parseOne part < 2 ^ 64 := by
  unfold parseOne
  generalize (if part.head? = some '+' then part.tail else part) = digits
  simp only
  split_ifs with read fits
  · exact fits
  · norm_num
  · norm_num

/-! What a point says, and what points say together. Nothing said counts as nothing. -/

def layoutOf (row : Row) : Option String := text row "histogram_bounds"

def countsOf (row : Row) : List Nat := parseUnsigned ((text row "histogram_counts").getD "")

def countOf (row : Row) : Nat := toU64 ((number row "histogram_count").getD 0)

def sumOf (row : Row) : ℚ := (number row "histogram_sum").getD 0

@[ext] structure PointTotals where
  value : ℚ
  buckets : Nat → Nat
  count : Nat
  sum : ℚ

def saying (row : Row) : PointTotals := ⟨valueOf row, fun i => (countsOf row).getD i 0, countOf row, sumOf row⟩

def totals (points : List Row) : PointTotals :=
  ⟨(points.map valueOf).sum, fun i => (points.map fun row => (countsOf row).getD i 0).sum, (points.map countOf).sum,
    (points.map sumOf).sum⟩

section
variable (points : List Row)

def firstLayout : Option String := (points.filterMap layoutOf).head?

/-- The points of one number, the histograms of the layout that is kept and those of another. -/
def plain : List Row := points.filter fun row => layoutOf row = none

def fitting : List Row := points.filter fun row => layoutOf row ≠ none ∧ layoutOf row = firstLayout points

def refused : List Row := points.filter fun row => layoutOf row ≠ none ∧ layoutOf row ≠ firstLayout points

def width : Nat := ((fitting points).head?.map fun row => (countsOf row).length).getD 0

theorem append_plain {row : Row} (none : layoutOf row = none) : firstLayout (points ++ [row]) = firstLayout points ∧
    plain (points ++ [row]) = plain points ++ [row] ∧ fitting (points ++ [row]) = fitting points ∧
      refused (points ++ [row]) = refused points := by
  have first : firstLayout (points ++ [row]) = firstLayout points := by simp [firstLayout, none]
  refine ⟨first, ?_, ?_, ?_⟩
  · simp [plain, none]
  · simp [fitting, first, none]
  · simp [refused, first, none]

theorem append_first {row : Row} {layout : String} (shaped : layoutOf row = some layout)
    (new : firstLayout points = none) : firstLayout (points ++ [row]) = some layout ∧
      plain (points ++ [row]) = plain points ∧ fitting points = [] ∧ fitting (points ++ [row]) = [row] ∧
        refused points = [] ∧ refused (points ++ [row]) = [] := by
  have all : ∀ p ∈ points, layoutOf p = none := by simpa [firstLayout] using new
  have first : firstLayout (points ++ [row]) = some layout := by
    rw [firstLayout, filterMap_append, filterMap_eq_nil_iff.mpr all]
    simp [shaped]
  have no (keep : Row → Prop) [DecidablePred keep] :
      points.filter (fun row => layoutOf row ≠ none ∧ keep row) = [] := by
    refine filter_eq_nil_iff.mpr fun p inside => ?_
    simp [all p inside]
  refine ⟨first, by simp [plain, shaped], no _, ?_, no _, ?_⟩
  · rw [fitting, filter_append, no, first]
    simp [shaped]
  · rw [refused, filter_append, no, first]
    simp [shaped]

theorem append_shaped {row : Row} {layout held : String} (shaped : layoutOf row = some layout)
    (first : firstLayout points = some held) : firstLayout (points ++ [row]) = some held ∧
      plain (points ++ [row]) = plain points ∧
      fitting (points ++ [row]) = (if held = layout then fitting points ++ [row] else fitting points) ∧
        refused (points ++ [row]) = if held = layout then refused points else refused points ++ [row] := by
  have kept : firstLayout (points ++ [row]) = some held := by
    unfold firstLayout at first ⊢
    rw [filterMap_append, head?_append, first]
    rfl
  refine ⟨kept, by simp [plain, shaped], ?_, ?_⟩
  · rw [fitting, filter_append, kept, fitting, first]
    by_cases same : held = layout
    · simp [shaped, same]
    · have other : ¬layout = held := fun back => same back.symm
      simp [shaped, same, other]
  · rw [refused, filter_append, kept, refused, first]
    by_cases same : held = layout
    · simp [shaped, same]
    · have other : ¬layout = held := fun back => same back.symm
      simp [shaped, same, other]

end

section
variable {bucketMs : Int} {key : Key} {row : Row} {rows points : List Row} {pass : Pass}

/-- Add one point to what is rolled up of its series: `none` where its layout is another. -/
def Rolled.add (entry : Rolled) (row : Row) : Option Rolled :=
  (layoutOf row).elim (some { entry with value := entry.value + valueOf row }) fun layout => entry.addHistogram layout row

def Rolled.take (entry : Rolled) (row : Row) : Rolled :=
  ((entry.add row).map fun added => { added with
    kind := (text row "metric_kind").getD ""
    unit := text row "unit"
    rolledUp := added.rolledUp + 1 }).getD { entry with mixedLayouts := true }

def Rolled.blank (row : Row) : Rolled := ⟨"", none, labelProperties row, 0, none, [], 0, 0, false, 0⟩

def keyOf (bucketMs : Int) (row : Row) : Option Key :=
  if row.kind = "metric-point" ∧ row.properties.get? "rollup_resolution_ms" = none ∧
      (text row "metric_kind").getD "" ≠ "gauge" ∧ text row "temporality" = some "delta" then
    some (toLex (windowOf bucketMs ((integer row "end_at").getD row.occurredAt),
      toLex ((text row "metric_name").getD row.name, (text row "series_key").getD "")))
  else none

theorem rollPoint_other (none : keyOf bucketMs row = none) : (rollPoint bucketMs pass row).windows = pass.windows ∧
    (rollPoint bucketMs pass row).skippedLayouts = pass.skippedLayouts := by
  unfold keyOf at none
  unfold rollPoint
  by_cases point : row.kind = "metric-point"
  · by_cases rolled : row.properties.get? "rollup_resolution_ms" = Option.none
    · by_cases gauge : (text row "metric_kind").getD "" = "gauge"
      · simp [point, rolled, gauge]
      · by_cases level : text row "temporality" = some "delta"
        · rw [if_pos ⟨point, rolled, gauge, level⟩] at none
          cases none
        · simp [point, rolled, gauge, level]
    · simp [point, rolled]
  · simp [point]

theorem rollPoint_point (mine : keyOf bucketMs row = some key) : (rollPoint bucketMs pass row).windows =
        pass.windows.insert key (((pass.windows.get? key).getD (.blank row)).take row) ∧
      (rollPoint bucketMs pass row).skippedLayouts = pass.skippedLayouts +
        if (((pass.windows.get? key).getD (.blank row)).add row).isNone then 1 else 0 := by
  unfold keyOf at mine
  split_ifs at mine with held
  obtain ⟨point, rolled, gauge, level⟩ := held
  cases mine
  unfold rollPoint
  rw [if_neg (not_not.mpr point), if_neg (not_not.mpr rolled)]
  simp only [if_neg gauge, if_neg (not_not.mpr level)]
  unfold Rolled.take Rolled.add layoutOf valueOf Rolled.blank
  cases shaped : text row "histogram_bounds" with
  | none => exact ⟨rfl, rfl⟩
  | some layout =>
    simp only [Option.elim_some]
    generalize (pass.windows.get? _).getD _ = entry
    obtain ⟨added, more⟩ : ∃ added, entry.addHistogram layout row = added := ⟨_, rfl⟩
    cases added <;> simp [more]

structure Sums (points : List Row) (entry : Rolled) : Prop where
  layout : entry.layout = firstLayout points
  mixed : entry.mixedLayouts = true ↔ refused points ≠ []
  rolledUp : entry.rolledUp + (refused points).length = points.length
  value : entry.value = ((plain points).map valueOf).sum
  count : entry.count = ((fitting points).map countOf).sum % 2 ^ 64
  sum : entry.sum = ((fitting points).map sumOf).sum
  wide : entry.counts.length = width points
  counts : ∀ i < width points, entry.counts.getD i 0 =
    min (2 ^ 64 - 1) ((fitting points).map fun row => (countsOf row).getD i 0).sum

theorem sums_blank (row : Row) : Sums [] (.blank row) :=
  ⟨rfl, by simp [Rolled.blank, refused], rfl, rfl, rfl, rfl, rfl, fun i small => by simp [width, fitting] at small⟩

theorem fitting_ne_nil {layout : String} (first : firstLayout points = some layout) : fitting points ≠ [] := by
  obtain ⟨row, inside, shaped⟩ := mem_filterMap.mp (mem_of_head? first)
  refine ne_nil_of_mem (List.mem_filter.mpr ⟨inside, decide_eq_true ⟨?_, ?_⟩⟩ : row ∈ fitting points)
  · rw [shaped]
    exact Option.some_ne_none _
  · rw [shaped, first]

theorem countsOf_lt (row : Row) (i : Nat) : (countsOf row).getD i 0 < 2 ^ 64 := by
  rw [getD_eq_getElem?_getD]
  cases found : (countsOf row)[i]? with
  | none => norm_num
  | some n =>
    obtain ⟨part, -, rfl⟩ := mem_map.mp (mem_of_getElem? found)
    exact parseOne_lt part

/-! One more point: of one number, the first histogram, one of the same layout and one of another. -/

variable {entry : Rolled} {layout kept : String}

variable (sums : Sums points entry)
include sums

theorem Sums.take_plain (shaped : layoutOf row = none) :
    Sums (points ++ [row]) (entry.take row) := by
  obtain ⟨first, one, fits, other⟩ := append_plain points shaped
  have wide : width (points ++ [row]) = width points := by rw [width, fits, width]
  unfold Rolled.take Rolled.add
  rw [shaped]
  refine ⟨?_, ?_, ?_, ?_, ?_, ?_, ?_, ?_⟩
  · exact sums.layout.trans first.symm
  · rw [other]
    exact sums.mixed
  · rw [other, length_append, ← sums.rolledUp]
    exact Nat.add_right_comm _ _ _
  · rw [one, map_append, sum_append, ← sums.value]
    simp
  · rw [fits]
    exact sums.count
  · rw [fits]
    exact sums.sum
  · rw [wide]
    exact sums.wide
  · rw [wide, fits]
    exact sums.counts

theorem Sums.take_first (shaped : layoutOf row = some layout)
    (held : firstLayout points = none) : Sums (points ++ [row]) (entry.take row) := by
  obtain ⟨first, one, before, fits, none, other⟩ := append_first points shaped held
  have wide : width (points ++ [row]) = (countsOf row).length := by simp [width, fits]
  have added : entry.addHistogram layout row = some { entry with
      layout := some layout
      counts := countsOf row
      count := (entry.count + countOf row) % 2 ^ 64
      sum := entry.sum + sumOf row } := by
    unfold Rolled.addHistogram
    rw [sums.layout, held]
    rfl
  unfold Rolled.take Rolled.add
  rw [shaped, Option.elim_some, added, Option.map_some, Option.getD_some]
  have mixed := sums.mixed
  have count := sums.count
  have sum := sums.sum
  rw [none] at mixed
  rw [before] at count sum
  refine ⟨first.symm, ?_, ?_, ?_, ?_, ?_, wide.symm, ?_⟩
  · rw [other]
    exact mixed
  · rw [other, length_append, ← sums.rolledUp, none]
    rfl
  · rw [one]
    exact sums.value
  · rw [fits]
    simp [count]
  · rw [fits]
    simp [sum]
  · intro i _
    have fit := Nat.le_sub_one_of_lt (countsOf_lt row i)
    rw [fits, map_singleton, sum_singleton]
    exact (min_eq_right fit).symm

theorem Sums.take_same (shaped : layoutOf row = some layout)
    (held : firstLayout points = some layout) : Sums (points ++ [row]) (entry.take row) := by
  obtain ⟨first, one, fits, other⟩ := append_shaped points shaped held
  rw [if_pos rfl] at fits other
  have wide : width (points ++ [row]) = width points := by
    rw [width, fits, width, head?_append_of_ne_nil _ (fitting_ne_nil held)]
  obtain ⟨merged, added, length, counts⟩ : ∃ merged : List Nat, entry.addHistogram layout row = some { entry with
      counts := merged
      count := (entry.count + countOf row) % 2 ^ 64
      sum := entry.sum + sumOf row } ∧ merged.length = entry.counts.length ∧ ∀ i < entry.counts.length,
        merged.getD i 0 = min (2 ^ 64 - 1) (entry.counts.getD i 0 + (countsOf row).getD i 0) := by
    unfold Rolled.addHistogram
    rw [sums.layout, held]
    simp only [reduceIte, Option.map_some]
    refine ⟨_, rfl, by rw [length_mapIdx], fun i small => ?_⟩
    have fit : entry.counts.getD i 0 ≤ 2 ^ 64 - 1 := by
      rw [sums.counts i (sums.wide ▸ small)]
      exact min_le_left _ _
    simp only [getD_eq_getElem?_getD, getElem?_mapIdx, getElem?_eq_getElem small, Option.map_some,
      Option.getD_some] at fit ⊢
    change _ = min _ (_ + ((countsOf row)[i]?).getD 0)
    unfold countsOf
    cases (parseUnsigned ((text row "histogram_counts").getD ""))[i]? with
    | none => exact (min_eq_right fit).symm
    | some more => rfl
  unfold Rolled.take Rolled.add
  rw [shaped, Option.elim_some, added, Option.map_some, Option.getD_some]
  refine ⟨?_, ?_, ?_, ?_, ?_, ?_, ?_, ?_⟩
  · exact sums.layout.trans (held.trans first.symm)
  · rw [other]
    exact sums.mixed
  · rw [other, length_append, ← sums.rolledUp]
    exact Nat.add_right_comm _ _ _
  · rw [one]
    exact sums.value
  · rw [fits, map_append, sum_append, map_singleton, sum_singleton]
    change (entry.count + countOf row) % 2 ^ 64 = _
    rw [sums.count, Nat.mod_add_mod]
  · rw [fits, map_append, sum_append, ← sums.sum]
    simp
  · rw [wide, ← sums.wide]
    exact length
  · intro i small
    rw [wide] at small
    have before := sums.counts i small
    rw [← sums.wide] at small
    rw [fits, map_append, sum_append, map_singleton, sum_singleton]
    refine (counts i small).trans ?_
    rw [before]
    omega

theorem Sums.take_other (shaped : layoutOf row = some layout)
    (held : firstLayout points = some kept) (differ : kept ≠ layout) : Sums (points ++ [row]) (entry.take row) := by
  obtain ⟨first, one, fits, other⟩ := append_shaped points shaped held
  rw [if_neg differ] at fits other
  have added : entry.addHistogram layout row = none := by
    unfold Rolled.addHistogram
    rw [sums.layout, held]
    simp only [if_neg differ, Option.map_none]
  have wide : width (points ++ [row]) = width points := by rw [width, fits, width]
  unfold Rolled.take Rolled.add
  rw [shaped, Option.elim_some, added, Option.map_none, Option.getD_none]
  refine ⟨?_, ?_, ?_, ?_, ?_, ?_, ?_, ?_⟩
  · exact sums.layout.trans (held.trans first.symm)
  · simp [other]
  · rw [other, length_append, length_append, ← sums.rolledUp, add_assoc]
  · rw [one]
    exact sums.value
  · rw [fits]
    exact sums.count
  · rw [fits]
    exact sums.sum
  · rw [wide]
    exact sums.wide
  · rw [wide, fits]
    exact sums.counts

theorem Sums.take (row : Row) : Sums (points ++ [row]) (entry.take row) ∧
    (refused (points ++ [row])).length = (refused points).length + if (entry.add row).isNone then 1 else 0 := by
  have adds : (entry.add row).isNone = (layoutOf row).any fun layout => (firstLayout points).any (· ≠ layout) := by
    unfold Rolled.add
    cases layoutOf row with
    | none => rfl
    | some layout =>
      unfold Rolled.addHistogram
      rw [sums.layout, Option.elim_some]
      cases firstLayout points with
      | none => rfl
      | some held => by_cases same : held = layout <;> simp [same]
  rw [adds]
  cases shaped : layoutOf row with
  | none => exact ⟨sums.take_plain shaped, by rw [(append_plain points shaped).2.2.2]; rfl⟩
  | some layout =>
    cases held : firstLayout points with
    | none =>
      obtain ⟨-, -, -, -, none, other⟩ := append_first points shaped held
      exact ⟨sums.take_first shaped held, by rw [none, other]; rfl⟩
    | some kept =>
      obtain ⟨-, -, -, other⟩ := append_shaped points shaped held
      by_cases same : kept = layout
      · subst same
        exact ⟨sums.take_same shaped held, by simp [other]⟩
      · exact ⟨sums.take_other shaped held same, by simp [other, same]⟩

omit sums

theorem sums_foldl (points : List Row) (row : Row) : Sums points (points.foldl Rolled.take (.blank row)) ∧
    (points.foldl Rolled.take (.blank row)).labels = labelProperties row := by
  have labels (entry : Rolled) (row : Row) : (entry.take row).labels = entry.labels := by
    unfold Rolled.take Rolled.add Rolled.addHistogram
    cases layoutOf row with
    | none => rfl
    | some layout =>
      cases entry.layout with
      | none => rfl
      | some held => by_cases same : held = layout <;> simp [same]
  induction points using List.reverseRecOn with
  | nil => exact ⟨sums_blank row, rfl⟩
  | append_singleton points next ih =>
    rw [foldl_append, foldl_cons, foldl_nil, labels]
    exact ⟨(ih.1.take next).1, ih.2⟩

/-! A pass holds, of one series in one window, what is rolled up of its points. -/

def pointsOf (bucketMs : Int) (key : Key) (rows : List Row) : List Row := rows.filter (keyOf bucketMs · = some key)

def othersOf (bucketMs : Int) (key : Key) (rows : List Row) : List Row := rows.filter (keyOf bucketMs · ≠ some key)

def rolledOf (points : List Row) : Option Rolled := points.head?.map fun row => points.foldl Rolled.take (.blank row)

theorem sums_rolledOf (points : List Row) (row : Row) : Sums points ((rolledOf points).getD (.blank row)) := by
  cases points with
  | nil => exact sums_blank row
  | cons first rest => exact (sums_foldl (first :: rest) first).1

theorem rolledOf_append (points : List Row) (row : Row) :
    rolledOf (points ++ [row]) = some (((rolledOf points).getD (.blank row)).take row) := by
  cases points with
  | nil => rfl
  | cons first rest => simp [rolledOf]

theorem roll_foldl (rows : List Row) :
    (∀ k, (rows.foldl (rollPoint bucketMs) ⟨∅, 0, 0⟩).windows.get? k = if k = key then rolledOf (pointsOf bucketMs key rows)
      else ((othersOf bucketMs key rows).foldl (rollPoint bucketMs) ⟨∅, 0, 0⟩).windows.get? k) ∧
    ((othersOf bucketMs key rows).foldl (rollPoint bucketMs) ⟨∅, 0, 0⟩).windows.get? key = none ∧
    (rows.foldl (rollPoint bucketMs) ⟨∅, 0, 0⟩).skippedLayouts =
      ((othersOf bucketMs key rows).foldl (rollPoint bucketMs) ⟨∅, 0, 0⟩).skippedLayouts +
        (refused (pointsOf bucketMs key rows)).length := by
  induction rows using List.reverseRecOn with
  | nil => exact ⟨fun k => by simp [pointsOf, othersOf, rolledOf, OrderedMap.get?], rfl, rfl⟩
  | append_singleton rows row ih =>
    obtain ⟨windows, new, skipped⟩ := ih
    rw [foldl_append, foldl_cons, foldl_nil]
    by_cases mine : keyOf bucketMs row = some key
    · have points : pointsOf bucketMs key (rows ++ [row]) = pointsOf bucketMs key rows ++ [row] := by
        simp [pointsOf, mine]
      have others : othersOf bucketMs key (rows ++ [row]) = othersOf bucketMs key rows := by simp [othersOf, mine]
      obtain ⟨held, more⟩ := @rollPoint_point bucketMs key row (rows.foldl (rollPoint bucketMs) ⟨∅, 0, 0⟩) mine
      have entry : (rows.foldl (rollPoint bucketMs) ⟨∅, 0, 0⟩).windows.get? key =
          rolledOf (pointsOf bucketMs key rows) := by rw [windows, if_pos rfl]
      rw [entry] at held more
      rw [points, others, more, held, skipped, ((sums_rolledOf (pointsOf bucketMs key rows) row).take row).2,
        rolledOf_append]
      refine ⟨fun k => ?_, new, by rw [add_assoc]⟩
      rw [get?_insert]
      split_ifs with same
      · rfl
      · rw [windows, if_neg same]
    · have points : pointsOf bucketMs key (rows ++ [row]) = pointsOf bucketMs key rows := by simp [pointsOf, mine]
      have others : othersOf bucketMs key (rows ++ [row]) = othersOf bucketMs key rows ++ [row] := by
        simp [othersOf, mine]
      rw [points, others, foldl_append, foldl_cons, foldl_nil]
      cases other : keyOf bucketMs row with
      | none =>
        rw [(rollPoint_other other).1, (rollPoint_other other).2, (rollPoint_other other).1,
          (rollPoint_other other).2]
        exact ⟨windows, new, skipped⟩
      | some k' =>
        have apart : k' ≠ key := fun same => mine (other.trans (congrArg some same))
        rw [(rollPoint_point other).1, (rollPoint_point other).2, (rollPoint_point other).1,
          (rollPoint_point other).2, windows k', if_neg apart, skipped]
        refine ⟨fun k => ?_, ?_, by omega⟩
        · rw [get?_insert, get?_insert, windows k]
          by_cases same : k = k'
          · subst same
            rw [if_pos rfl, if_pos rfl, if_neg apart]
          · rw [if_neg same, if_neg same]
        · rw [get?_insert, if_neg (Ne.symm apart), new]

end

/-! What the row that is written carries. -/

section
variable {format : ℚ → String} {digest : Bytes → Id} {points : List Row} {rolled : Rolled} {name : String}
  {startAt endAt : Int} {projectId : Id}

theorem labels_apart (row : Row) {key : String} (reserved : key ∈ metricFields ∨ key ∈ markers) :
    ∀ label ∈ labelProperties row, label.1 ≠ key := by
  rintro label inside rfl
  obtain ⟨entry, there, rfl⟩ := mem_map.mp inside
  have free := of_decide_eq_true (List.mem_filter.mp there).2
  exact reserved.elim free.1 free.2

theorem value_metricRow (kind : String) (key : String) : value (metricRow digest name endAt projectId kind) key =
    if key = "temporality" then some (.text "delta") else if key = "derived" then some (.text "tallyowl-rollup")
    else if key = "metric_kind" then some (.text kind) else if key = "metric_name" then some (.text name) else none := by
  simp only [metricRow, value_withProperty]
  rfl

theorem value_intoRow (row : Row) (labels : rolled.labels = labelProperties row) {key : String}
    (mine : key ∈ ["value", "histogram_bounds", "histogram_counts", "histogram_count", "histogram_sum", "rollup_points"]) :
    value (rolled.intoRow format digest name startAt endAt projectId) key =
      if key = "rollup_points" then some (.unsigned rolled.rolledUp)
      else rolled.layout.elim (if key = "value" then some (.float rolled.value) else none) fun layout =>
        if key = "histogram_bounds" then some (.text layout)
        else if key = "histogram_counts" then some (.text (joinUnsigned rolled.counts))
        else if key = "histogram_count" then some (.unsigned rolled.count)
        else if key = "histogram_sum" then some (.float rolled.sum) else none := by
  have apart : ∀ label ∈ rolled.labels, label.1 ≠ key := by
    rw [labels]
    refine labels_apart row ?_
    simp only [mem_cons, not_mem_nil, or_false] at mine
    rcases mine with rfl | rfl | rfl | rfl | rfl | rfl <;> decide
  unfold Rolled.intoRow Row.keyed
  simp only [mem_cons, not_mem_nil, or_false] at mine
  cases rolled.unit <;> cases rolled.layout <;> rcases mine with rfl | rfl | rfl | rfl | rfl | rfl <;>
    simp [value_withProperty, value_labels apart, value_metricRow]

theorem saying_intoRow (row : Row) (labels : rolled.labels = labelProperties row) (fit : ∀ n ∈ rolled.counts, n < 2 ^ 64) :
    saying (rolled.intoRow format digest name startAt endAt projectId) =
      rolled.layout.elim ⟨rolled.value, fun _ => 0, 0, 0⟩ fun _ =>
        ⟨0, fun i => rolled.counts.getD i 0, toU64 rolled.count, rolled.sum⟩ := by
  unfold saying valueOf countsOf countOf sumOf number text
  rw [value_intoRow row labels (by simp), value_intoRow row labels (by simp), value_intoRow row labels (by simp),
    value_intoRow row labels (by simp)]
  cases rolled.layout with
  | none => simp [parseUnsigned, toU64]
  | some layout => simp [parseUnsigned_join fit]

end

/-- What one row can carry of the points of a series: their histograms are of one layout, what a point says that is
not of the kind of the row comes to nothing, no histogram has more buckets filled than the first, and the counts fit
64 bits. -/
structure Mergeable (points : List Row) : Prop where
  oneLayout : refused points = []
  values : firstLayout points ≠ none → (points.map valueOf).sum = 0
  shapes : ∀ row ∈ plain points, countOf row = 0 ∧ ∀ i, (countsOf row).getD i 0 = 0
  sums : ((plain points).map sumOf).sum = 0
  buckets : ∀ row ∈ fitting points, ∀ i, width points ≤ i → (countsOf row).getD i 0 = 0
  bucketsFit : ∀ i, ((fitting points).map fun row => (countsOf row).getD i 0).sum < 2 ^ 64
  countFits : ((fitting points).map countOf).sum < 2 ^ 64

section
variable (format : ℚ → String) (digest : Bytes → Id) (rows : List Row) (bucketMs : Int) (projectId : Id) (key : Key)

/-- The points of one series in one window are all in one row, with their totals and their number, or all skipped:
against what a pass writes without them. -/
def Preserved : Prop :=
  (∃ row, (downsample format digest rows bucketMs projectId).rows.Perm
      (row :: (downsample format digest (othersOf bucketMs key rows) bucketMs projectId).rows) ∧
    row.name = (ofLex (ofLex key).2).1 ∧ row.occurredAt = (ofLex key).1 + bucketMs ∧
    saying row = totals (pointsOf bucketMs key rows) ∧
    value row "rollup_points" = some (.unsigned (pointsOf bucketMs key rows).length)) ∨
  ((downsample format digest rows bucketMs projectId).rows.Perm
      (downsample format digest (othersOf bucketMs key rows) bucketMs projectId).rows ∧
    (downsample format digest rows bucketMs projectId).skippedLayouts =
      (downsample format digest (othersOf bucketMs key rows) bucketMs projectId).skippedLayouts +
        (pointsOf bucketMs key rows).length)

theorem sum_apart {M : Type} [AddCommMonoid M] (f : Row → M) {points : List Row} (one : refused points = []) :
    (points.map f).sum = ((plain points).map f).sum + ((fitting points).map f).sum := by
  have fits : fitting points = points.filter fun row => layoutOf row ≠ none := by
    refine filter_congr fun row inside => ?_
    have first := filter_eq_nil_iff.mp one row inside
    by_cases none : layoutOf row = Option.none <;> simp_all
  rw [fits, plain]
  clear one fits
  induction points with
  | nil => simp
  | cons row rest ih =>
    rw [map_cons, sum_cons, ih, filter_cons, filter_cons]
    by_cases none : layoutOf row = Option.none
    · simp [none, add_assoc]
    · simp [none, add_left_comm]

theorem rows_perm (positive : 0 < bucketMs) : (downsample format digest rows bucketMs projectId).rows.Perm
    (((rolledOf (pointsOf bucketMs key rows)).bind fun rolled => windowRow format digest bucketMs projectId (key, rolled)).toList ++
      (downsample format digest (othersOf bucketMs key rows) bucketMs projectId).rows) := by
  obtain ⟨windows, new, -⟩ := @roll_foldl bucketMs key rows
  unfold downsample
  rw [if_neg (not_le.mpr positive), if_neg (not_le.mpr positive)]
  generalize rows.foldl (rollPoint bucketMs) ⟨∅, 0, 0⟩ = pass at windows
  generalize (othersOf bucketMs key rows).foldl (rollPoint bucketMs) ⟨∅, 0, 0⟩ = others at windows new
  cases rolled : rolledOf (pointsOf bucketMs key rows) with
  | none =>
    have same : pass.windows = others.windows := ext_of_get? fun k => by
      rw [windows, rolled]
      split_ifs with is
      · rw [is, new]
      · rfl
    simp [same]
  | some entry =>
    have more : pass.windows.entries.Perm ((key, entry) :: others.windows.entries) := by
      have fresh : (key, entry) ∉ others.windows.entries := fun there =>
        absurd (get?_eq_some.mpr there) (by simp [new])
      refine (perm_ext_iff_of_nodup (nodup_entries _)
        (nodup_cons.mpr ⟨fresh, nodup_entries _⟩)).mpr fun e => ?_
      obtain ⟨k, v⟩ := e
      rw [← get?_eq_some, windows, rolled, mem_cons, ← get?_eq_some, Prod.mk.injEq]
      by_cases is : k = key
      · simp [is, new, eq_comm]
      · simp [is]
    refine (more.filterMap _).trans ?_
    rw [filterMap_cons, Option.bind_some]
    cases windowRow format digest bucketMs projectId (key, entry) <;> rfl

theorem mergeable_iff {points : List Row} {rolled : Rolled} (sums : Sums points rolled) (row : Row)
    (labels : rolled.labels = labelProperties row) (one : refused points = []) (name : String) (startAt endAt : Int) :
    saying (rolled.intoRow format digest name startAt endAt projectId) = totals points ↔ Mergeable points := by
  have fit : ∀ n ∈ rolled.counts, n < 2 ^ 64 := by
    intro n inside
    obtain ⟨i, small, rfl⟩ := mem_iff_getElem.mp inside
    have clipped := sums.counts i (sums.wide ▸ small)
    rw [getD_eq_getElem?_getD, getElem?_eq_getElem small, Option.getD_some] at clipped
    omega
  have count : toU64 (rolled.count : ℚ) = ((fitting points).map countOf).sum % 2 ^ 64 := by
    unfold toU64
    rw [sums.count, Int.floor_natCast, Int.toNat_natCast]
    omega
  have buckets (i : Nat) : rolled.counts.getD i 0 = if i < width points then
      min (2 ^ 64 - 1) ((fitting points).map fun row => (countsOf row).getD i 0).sum else 0 := by
    split_ifs with small
    · exact sums.counts i small
    · rw [getD_eq_getElem?_getD, getElem?_eq_none (by rw [sums.wide]; omega), Option.getD_none]
  have zero (f : Row → Nat) (xs : List Row) : (xs.map f).sum = 0 ↔ ∀ x ∈ xs, f x = 0 := by
    induction xs with
    | nil => simp
    | cons x rest ih => simp [ih]
  rw [saying_intoRow row labels fit, sums.layout, count, funext buckets, sums.sum, sums.value]
  have values := sum_apart valueOf one
  unfold totals
  rw [values, sum_apart countOf one, sum_apart sumOf one]
  simp only [sum_apart _ one]
  cases first : firstLayout points with
  | none =>
    have none : fitting points = [] := by
      have all : ∀ p ∈ points, layoutOf p = none := by simpa [firstLayout] using first
      exact filter_eq_nil_iff.mpr fun p inside => by simp [all p inside]
    simp only [Option.elim_none, none, map_nil, sum_nil, add_zero, PointTotals.mk.injEq, true_and]
    constructor
    · rintro ⟨shapes, counts, said⟩
      refine ⟨one, fun some => absurd first some, fun p inside => ⟨?_, fun i => ?_⟩, said.symm, ?_, ?_, ?_⟩
      · exact (zero _ _).mp counts.symm p inside
      · exact (zero _ _).mp (congrFun shapes i).symm p inside
      · simp [none]
      · simp [none]
      · simp [none]
    · rintro ⟨-, -, shapes, said, -, -, -⟩
      refine ⟨funext fun i => ?_, ?_, said.symm⟩
      · exact ((zero _ _).mpr fun p inside => (shapes p inside).2 i).symm
      · exact ((zero _ _).mpr fun p inside => (shapes p inside).1).symm
  | some layout =>
    simp only [Option.elim_some, PointTotals.mk.injEq, right_eq_add]
    constructor
    · rintro ⟨value, shapes, counts, said⟩
      have each (i : Nat) : (if i < width points then
          min (2 ^ 64 - 1) ((fitting points).map fun row => (countsOf row).getD i 0).sum else 0) =
            ((plain points).map fun row => (countsOf row).getD i 0).sum +
              ((fitting points).map fun row => (countsOf row).getD i 0).sum := congrFun shapes i
      refine ⟨one, fun _ => values.trans value.symm, fun p inside => ⟨?_, fun i => ?_⟩, said, ?_, fun i => ?_, ?_⟩
      · exact (zero _ _).mp (by omega) p inside
      · have none : ((plain points).map fun row => (countsOf row).getD i 0).sum = 0 := by
          have both := each i
          split_ifs at both <;> omega
        exact (zero (fun row => (countsOf row).getD i 0) _).mp none p inside
      · intro p inside i wide
        have none : ((fitting points).map fun row => (countsOf row).getD i 0).sum = 0 := by
          have both := each i
          rw [if_neg (by omega)] at both
          omega
        exact (zero (fun row => (countsOf row).getD i 0) _).mp none p inside
      · have both := each i
        split_ifs at both <;> omega
      · omega
    · rintro ⟨-, value, shapes, said, filled, fits, small⟩
      refine ⟨(values.symm.trans (value (by simp [first]))).symm, funext fun i => ?_, ?_, said⟩
      · rw [(zero _ _).mpr fun p inside => (shapes p inside).2 i]
        have one := fits i
        split_ifs with wide
        · omega
        · rw [(zero _ _).mpr fun p inside => filled p inside i (by omega)]
      · rw [(zero _ _).mpr fun p inside => (shapes p inside).1]
        omega

/-- The totals are preserved exactly where one row can carry what the points say. -/
theorem totals_preserved_iff (positive : 0 < bucketMs) : Preserved format digest rows bucketMs projectId key ↔
    Mergeable (pointsOf bucketMs key rows) := by
  have perm := rows_perm format digest rows bucketMs projectId key positive
  have skipped : (downsample format digest rows bucketMs projectId).skippedLayouts =
      (downsample format digest (othersOf bucketMs key rows) bucketMs projectId).skippedLayouts +
        (refused (pointsOf bucketMs key rows)).length := by
    unfold downsample
    rw [if_neg (not_le.mpr positive), if_neg (not_le.mpr positive)]
    exact (@roll_foldl bucketMs key rows).2.2
  unfold Preserved
  rw [skipped]
  generalize downsample format digest rows bucketMs projectId = out at perm
  generalize downsample format digest (othersOf bucketMs key rows) bucketMs projectId = others at perm
  generalize pointsOf bucketMs key rows = points at perm
  cases points with
  | nil =>
    refine iff_of_true (.inr ⟨perm, rfl⟩) ⟨rfl, fun some => absurd rfl some, ?_, rfl, ?_, ?_, ?_⟩ <;>
      simp [plain, fitting]
  | cons first rest =>
    obtain ⟨sums, labels⟩ := sums_foldl (first :: rest) first
    generalize rolled : (first :: rest).foldl Rolled.take (.blank first) = entry at sums labels
    have held : rolledOf (first :: rest) = some entry := congrArg some rolled
    rw [held, Option.bind_some] at perm
    have read : first :: rest ≠ [] := List.cons_ne_nil _ _
    generalize first :: rest = points at sums read
    by_cases one : refused points = []
    · -- one layout: the series has a row
      have kept : entry.mixedLayouts = false := Bool.eq_false_iff.mpr fun mixed => sums.mixed.mp mixed one
      have written : windowRow format digest bucketMs projectId (key, entry) = some (entry.intoRow format digest
          (ofLex (ofLex key).2).1 (ofLex key).1 ((ofLex key).1 + bucketMs) projectId) := by
        simp [windowRow, kept]
      have same := mergeable_iff format digest projectId sums first labels one (ofLex (ofLex key).2).1 (ofLex key).1
        ((ofLex key).1 + bucketMs)
      have stamped := @stamp_intoRow format digest entry (ofLex (ofLex key).2).1 (ofLex key).1
        ((ofLex key).1 + bucketMs) projectId
      have number := @value_intoRow format digest entry (ofLex (ofLex key).2).1 (ofLex key).1
        ((ofLex key).1 + bucketMs) projectId first labels "rollup_points" (by simp)
      rw [written, Option.toList_some, List.singleton_append] at perm
      generalize entry.intoRow format digest (ofLex (ofLex key).2).1 (ofLex key).1 ((ofLex key).1 + bucketMs) projectId =
        row at perm same stamped number
      simp only [stamp, Prod.mk.injEq] at stamped
      have number_of : entry.rolledUp = points.length := by
        have all := sums.rolledUp
        rwa [one] at all
      rw [← same]
      constructor
      · rintro (⟨other, also, -, -, said, -⟩ | ⟨also, -⟩)
        · have rows : Multiset.cons row others.rows = Multiset.cons other others.rows :=
            Multiset.coe_eq_coe.mpr (perm.symm.trans also)
          rw [(Multiset.cons_inj_left _).mp rows, said]
        · have lengths := (perm.symm.trans also).length_eq
          simp at lengths
      · intro said
        refine .inl ⟨row, perm, stamped.2.2.1, stamped.2.2.2, said, ?_⟩
        rw [number, if_pos rfl, number_of]
    · -- the first layout is written off with the others, and not counted
      have left : windowRow format digest bucketMs projectId (key, entry) = none := by
        simp [windowRow, sums.mixed.mpr one]
      rw [left, Option.toList_none, List.nil_append] at perm
      refine iff_of_false ?_ fun mergeable => one mergeable.oneLayout
      rintro (⟨other, also, -⟩ | ⟨-, counted⟩)
      · have lengths := (perm.symm.trans also).length_eq
        simp at lengths
      · have all : ∀ row ∈ points, layoutOf row ≠ none ∧ layoutOf row ≠ firstLayout points := by
          have whole := List.length_filter_eq_length_iff.mp (Nat.add_left_cancel counted)
          exact fun row inside => of_decide_eq_true (whole row inside)
        obtain ⟨row, inside⟩ := List.exists_mem_of_ne_nil _ read
        obtain ⟨layout, shaped⟩ := Option.ne_none_iff_exists'.mp (all row inside).1
        cases held : firstLayout points with
        | none =>
          have no : ∀ p ∈ points, layoutOf p = none := by simpa [firstLayout] using held
          exact (all row inside).1 (no row inside)
        | some kept =>
          obtain ⟨p, fits⟩ := List.exists_mem_of_ne_nil _ (fitting_ne_nil held)
          obtain ⟨there, same⟩ := List.mem_filter.mp fits
          exact (all p there).2 (of_decide_eq_true same).2

end
def latency (eventId : Id) (moment : Int) (bounds counts : String) (count : Nat) (sum : ℚ) : Row :=
  Row.new eventId "metric-point" "latency" moment
    |>.withProperty "metric_kind" (.text "histogram") "client"
    |>.withProperty "temporality" (.text "delta") "client"
    |>.withProperty "series_key" (.text "histogram") "client"
    |>.withProperty "histogram_bounds" (.text bounds) "client"
    |>.withProperty "histogram_counts" (.text counts) "client"
    |>.withProperty "histogram_count" (.unsigned count) "client"
    |>.withProperty "histogram_sum" (.float sum) "client"

def latencyKey : Key := toLex (0, toLex ("latency", "histogram"))

/-- Two histograms of one layout. -/
theorem totals_preserved_two : Preserved (fun _ => "") lastBytes [latency 1 5 "1,2" "3,4,0" 7 8, latency 2 6 "1,2" "1,0,0" 1 1]
      60 0 latencyKey ↔
    Mergeable (pointsOf 60 latencyKey [latency 1 5 "1,2" "3,4,0" 7 8, latency 2 6 "1,2" "1,0,0" 1 1]) :=
  totals_preserved_iff (fun _ => "") lastBytes _ 60 0 latencyKey (by decide)

/-- Two histograms of two layouts: neither is rolled up, and one is counted. -/
theorem totals_lost_of_layouts :
    ¬Preserved (fun _ => "") lastBytes [latency 1 5 "1,2" "3,4,0" 7 8, latency 2 6 "1,3" "1,0,0" 1 1] 60 0 latencyKey := by
  rintro (⟨row, rows, -⟩ | ⟨-, skipped⟩)
  · have none : (downsample (fun _ => "") lastBytes
        [latency 1 5 "1,2" "3,4,0" 7 8, latency 2 6 "1,3" "1,0,0" 1 1] 60 0).rows.length = 0 := by decide +kernel
    rw [rows.length_eq] at none
    simp at none
  · revert skipped
    decide +kernel

end TallyOwl.Rollup
