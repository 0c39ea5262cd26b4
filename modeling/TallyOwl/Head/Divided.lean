import Mathlib.Data.Int.ModEq
import TallyOwl.Head.PushDown

/-! One measure over one group, folded at once and in parts: a count adds up, a set of
keys is a union, an extreme is the value that beats the others, and an exact sum is the
sum of its parts as long as nothing leaves an `i128`. -/
namespace TallyOwl.Query
open Lib RowCodec TallyOwl.Expr List OrderedMap

section
variable (floats : Floats)

theorem ord_swap {α : Type} [Ord α] [Std.OrientedOrd α] (a b : α) :
    Ord.compare a b = (Ord.compare b a).swap := Std.OrientedCmp.eq_swap

theorem compareFractions_nil (digits : List Nat) :
    compareFractions digits [] = if digits.all (· = 0) then .eq else .gt := by
  induction digits with
  | nil => rfl
  | cons a digits ih =>
    rw [compareFractions, tail_nil, ih]
    rcases Nat.eq_zero_or_pos a with rfl | positive
    · simp
    · have greater : Ord.compare a 0 = .gt := Nat.compare_eq_gt.mpr positive
      simp [greater, positive.ne']

theorem compareFractions_swap (left right : List Nat) :
    compareFractions right left = (compareFractions left right).swap := by
  induction left generalizing right with
  | nil =>
    rw [compareFractions_nil, compareFractions]
    split <;> rfl
  | cons a left ih =>
    cases right with
    | nil =>
      rw [compareFractions_nil, compareFractions]
      split <;> rfl
    | cons b right =>
      simp only [compareFractions, headD_cons, tail_cons, Ordering.swap_then]
      rw [ih right, ord_swap b a]

theorem compareDigits_swap (a b c d : List Nat) : compareDigits c d a b = (compareDigits a b c d).swap := by
  simp only [compareDigits, Ordering.swap_then]
  rw [compareFractions_swap b d, ord_swap (trimLeading c).length, ord_swap (trimLeading c)]

theorem decimalCompare_swap (left right : String) :
    decimalCompare right left = (decimalCompare left right).map Ordering.swap := by
  unfold decimalCompare
  cases splitDecimal left with
  | none => cases splitDecimal right <;> rfl
  | some l =>
    cases splitDecimal right with
    | none => rfl
    | some r =>
      obtain ⟨negative, whole, fraction⟩ := l
      obtain ⟨negative', whole', fraction'⟩ := r
      simp only [Option.bind_eq_bind, Option.bind_some]
      rw [compareDigits_swap whole fraction, Bool.and_comm]
      cases negative <;> cases negative' <;> simp <;> split <;> rfl

theorem compare_swap (a b : PropertyValue) : Expr.compare floats b a = (Expr.compare floats a b).map Ordering.swap := by
  have floated : ∀ x y : Option UInt64,
      (y.bind fun a => x.bind fun b => floats.partialCmp a b) =
        x.bind fun a => y.bind fun b => (floats.partialCmp a b).map Ordering.swap := by
    intro x y
    cases x with
    | none => cases y <;> rfl
    | some a =>
      cases y with
      | none => rfl
      | some b => exact floats.partialCmp_swap a b
  have left : ∀ (x : Option String) v, (x.bind fun a => decimalCompare a v) =
      x.bind fun b => (decimalCompare v b).map Ordering.swap := by
    intro x v
    cases x with
    | none => rfl
    | some b => exact decimalCompare_swap v b
  have right : ∀ (x : Option String) v, (x.bind fun b => decimalCompare v b) =
      x.bind fun a => (decimalCompare a v).map Ordering.swap := by
    intro x v
    cases x with
    | none => rfl
    | some a => exact decimalCompare_swap a v
  cases a <;> cases b <;> simp [Expr.compare]
  all_goals with_reducible first
    | exact floated _ _
    | exact left _ _
    | exact right _ _
    | exact ord_swap _ _
    | exact decimalCompare_swap _ _

end

/-! Exact sums. -/

section

def aligned (scale : Nat) (parts : List (Int × Nat)) : Int :=
  (parts.map fun part => part.1 * 10 ^ (scale - part.2)).sum

def widest (parts : List (Int × Nat)) : Nat := (parts.map Prod.snd).foldr max 0

variable {parts others : List (Int × Nat)}

theorem widest_append : widest (parts ++ others) = max (widest parts) (widest others) := by
  induction parts with
  | nil => simp [widest]
  | cons part parts ih =>
    simp only [widest, cons_append, map_cons, foldr_cons] at ih ⊢
    rw [ih, max_assoc]

theorem aligned_append (scale : Nat) :
    aligned scale (parts ++ others) = aligned scale parts + aligned scale others := by
  simp [aligned]

theorem aligned_lift {narrow wide : Nat} (fits : widest parts ≤ narrow) (wider : narrow ≤ wide) :
    aligned wide parts = aligned narrow parts * 10 ^ (wide - narrow) := by
  induction parts with
  | nil => simp [aligned]
  | cons part parts ih =>
    simp only [widest, map_cons, foldr_cons, max_le_iff] at fits
    simp only [aligned, map_cons, sum_cons] at ih ⊢
    rw [ih fits.2, add_mul, mul_assoc, ← pow_add]
    congr 3
    omega

theorem perm_aligned (same : parts.Perm others) (scale : Nat) :
    aligned scale parts = aligned scale others := (same.map _).sum_eq

theorem perm_widest (same : parts.Perm others) : widest parts = widest others :=
  (same.map _).foldr_eq 0

theorem lift_eq {scale : Nat} {value : Int × Nat} {lifted : Int} (found : lift scale value = some lifted) :
    lifted = value.1 * 10 ^ (scale - value.2) := by
  simp only [lift, checkedPow, checkI128, Option.bind_eq_bind, Option.bind_eq_some_iff] at found
  obtain ⟨factor, power, product⟩ := found
  split at power
  · cases power
    split at product
    · exact (Option.some.inj product).symm
    · cases product
  · cases power

theorem sumExact_eq {total : Int × Nat} (found : sumExact parts = some total) :
    total = (aligned (widest parts) parts, widest parts) := by
  induction parts using List.reverseRecOn generalizing total with
  | nil => exact (Option.some.inj found).symm
  | append_singleton parts part ih =>
    rw [sumExact_snoc] at found
    obtain ⟨held, before, added⟩ := Option.bind_eq_some_iff.mp found
    obtain rfl := ih before
    simp only [addExact, Option.bind_eq_bind, Option.bind_eq_some_iff] at added
    obtain ⟨a, first, b, second, sum, checked, same⟩ := added
    have wide : widest (parts ++ [part]) = max (widest parts) part.2 := by
      rw [widest_append]
      simp [widest]
    have left := lift_eq first
    have right := lift_eq second
    have exact : sum = a + b := by
      unfold checkI128 at checked
      split at checked
      · exact (Option.some.inj checked).symm
      · cases checked
    cases same
    rw [wide, aligned_append, aligned_lift le_rfl (le_max_left _ part.2), exact, left, right]
    simp [aligned]

theorem sumExact_init (found : (sumExact (parts ++ others)).isSome) : (sumExact parts).isSome := by
  simp only [sumExact, foldlM_append] at found
  obtain ⟨total, whole⟩ := Option.isSome_iff_exists.mp found
  obtain ⟨held, before, -⟩ := Option.bind_eq_some_iff.mp whole
  exact Option.isSome_iff_exists.mpr ⟨held, before⟩

end

/-! Extremes. -/

section
variable {engine : Engine} {largest : Bool} {values : List PropertyValue} {best : PropertyValue}

def Beats (engine : Engine) (largest : Bool) (best other : PropertyValue) : Prop :=
  Expr.compare engine.floats best other = some (if largest then .gt else .lt)

def Foremost (engine : Engine) (largest : Bool) (values : List PropertyValue) : Prop :=
  values = [] ∨ ∃ best ∈ values, ∀ other ∈ values, other ≠ best → Beats engine largest best other

theorem replaces_iff (value held : PropertyValue) :
    replaces engine largest value (some held) = true ↔ Beats engine largest value held := by
  cases found : Expr.compare engine.floats value held with
  | none => simp [replaces, Beats, found]
  | some ordering => cases ordering <;> cases largest <;> simp [replaces, Beats, found]

theorem Beats.stays {other : PropertyValue} (beats : Beats engine largest best other) :
    replaces engine largest other (some best) = false := by
  rw [Bool.eq_false_iff, Ne, replaces_iff]
  unfold Beats at beats ⊢
  rw [compare_swap, beats]
  cases largest <;> simp

theorem extremeOf_snoc (value : PropertyValue) : extremeOf engine largest (values ++ [value]) =
    towards engine largest (extremeOf engine largest values) value := by
  simp [extremeOf]

theorem extremeOf_best (inside : best ∈ values)
    (beats : ∀ other ∈ values, other ≠ best → Beats engine largest best other) :
    extremeOf engine largest values = some best := by
  induction values using List.reverseRecOn with
  | nil => cases inside
  | append_singleton values last ih =>
    rw [extremeOf_snoc, towards]
    have earlier : ∀ other ∈ values, other ≠ best → Beats engine largest best other := fun other held =>
      beats other (mem_append_left _ held)
    by_cases same : last = best
    · subst same
      cases held : extremeOf engine largest values with
      | none => rfl
      | some value =>
        by_cases other : value = last
        · subst other
          split <;> rfl
        · rw [if_pos ((replaces_iff _ _).mpr (earlier value (extremeOf_mem held) other))]
    · have before : best ∈ values := by
        rcases mem_append.mp inside with held | only
        · exact held
        · exact absurd (mem_singleton.mp only).symm same
      rw [ih before earlier, (beats last (by simp) same).stays]
      rfl

theorem extremeOf_isSome (some : values ≠ []) : (extremeOf engine largest values).isSome := by
  obtain ⟨init, last, rfl⟩ := eq_nil_or_concat' values |>.resolve_left some
  rw [extremeOf_snoc, towards]
  cases held : extremeOf engine largest init with
  | none => rfl
  | some value => split <;> rfl

end

/-! One measure over one group. -/

section
variable (engine : Engine) (measure : Measure)

/-- Whether a measure over the rows of one group says the same however they are divided. A
sum stays inside an `i128` in whatever order its numbers are added, an extreme beats every
other value, and distinct values stay under the cap. -/
def Steady (rows : List EventRow) : Prop :=
  match measure.kind with
  | .sum => ∀ order : List EventRow, order.Perm rows → (sumExact (partsOf measure order)).isSome
  | .min => Foremost engine false (reads measure rows)
  | .max => Foremost engine true (reads measure rows)
  | .countDistinct => (keySet engine (reads measure rows)).entries.length ≤ distinctCap
  | _ => True

end

section
variable {engine : Engine} {measure : Measure} {rows : List EventRow} {parts : List (List EventRow)}

theorem reads_flatten : reads measure parts.flatten = (parts.map (reads measure)).flatten := by
  simp only [reads, filterMap_flatten]
  rfl

theorem perm_reads (same : parts.flatten.Perm rows) :
    ((parts.map (reads measure)).flatten).Perm (reads measure rows) := by
  rw [← reads_flatten]
  exact same.filterMap _

theorem mem_reads_of_part (same : parts.flatten.Perm rows) {part : List EventRow} (inside : part ∈ parts)
    {value : PropertyValue} (held : value ∈ reads measure part) : value ∈ reads measure rows :=
  (perm_reads same).mem_iff.mp (mem_flatten.mpr ⟨_, mem_map_of_mem inside, held⟩)

theorem extremeOf_parts {largest : Bool} (same : parts.flatten.Perm rows)
    (foremost : Foremost engine largest (reads measure rows)) :
    extremeOf engine largest (parts.filterMap fun part => extremeOf engine largest (reads measure part)) =
      extremeOf engine largest (reads measure rows) := by
  rcases foremost with empty | ⟨best, inside, beats⟩
  · have none : ∀ part ∈ parts, reads measure part = [] := by
      intro part held
      refine eq_nil_iff_forall_not_mem.mpr fun value there => ?_
      have more := mem_reads_of_part same held there
      rw [empty] at more
      cases more
    have all : (parts.filterMap fun part => extremeOf engine largest (reads measure part)) = [] := by
      refine filterMap_eq_nil_iff.mpr fun part held => ?_
      rw [none part held]
      rfl
    rw [all, empty]
  · rw [extremeOf_best inside beats]
    obtain ⟨values, there, mine⟩ := mem_flatten.mp ((perm_reads same).mem_iff.mpr inside)
    obtain ⟨part, held, rfl⟩ := mem_map.mp there
    refine extremeOf_best (mem_filterMap.mpr ⟨part, held, ?_⟩) fun other found => ?_
    · exact extremeOf_best mine fun other more => beats other (mem_reads_of_part same held more)
    · obtain ⟨part, held, extreme⟩ := mem_filterMap.mp found
      exact beats other (mem_reads_of_part same held (extremeOf_mem extreme))

theorem mem_joined {keys : List (GroupKey × Unit)} {seen : OrderedMap GroupKey Unit} {key : GroupKey} :
    (key, ()) ∈ (keys.foldl (fun seen e => seen.insert e.1 ()) seen).entries ↔
      (key, ()) ∈ seen.entries ∨ (key, ()) ∈ keys := by
  induction keys generalizing seen with
  | nil => simp
  | cons e keys ih =>
    obtain ⟨first, ⟨⟩⟩ := e
    rw [foldl_cons, ih, mem_insert]
    by_cases same : key = first <;> simp [same]

theorem mem_mergedKeys {key : GroupKey} : (key, ()) ∈ (mergedKeys engine measure parts).entries ↔
    ∃ part ∈ parts, (key, ()) ∈ (keySet engine (reads measure part)).entries := by
  induction parts using List.reverseRecOn with
  | nil => simp [mergedKeys]
  | append_singleton parts part ih =>
    have step : mergedKeys engine measure (parts ++ [part]) =
        (keySet engine (reads measure part)).entries.foldl (fun seen e => seen.insert e.1 ())
          (mergedKeys engine measure parts) := by
      simp [mergedKeys]
    rw [step, mem_joined, ih]
    simp [or_and_right, exists_or]

theorem mergedKeys_eq (same : parts.flatten.Perm rows) :
    mergedKeys engine measure parts = keySet engine (reads measure rows) := by
  refine ext_of_mem ?_
  rintro ⟨key, ⟨⟩⟩
  rw [mem_mergedKeys, mem_keySet]
  constructor
  · rintro ⟨part, inside, found⟩
    obtain ⟨value, held, keyed⟩ := mem_keySet.mp found
    exact ⟨value, mem_reads_of_part same inside held, keyed⟩
  · rintro ⟨value, inside, keyed⟩
    obtain ⟨values, there, mine⟩ := mem_flatten.mp ((perm_reads same).mem_iff.mpr inside)
    obtain ⟨part, held, rfl⟩ := mem_map.mp there
    exact ⟨part, held, mem_keySet.mpr ⟨value, mine, keyed⟩⟩

/-! A total that merges wraps, and is the exact one where this fits. -/

theorem wrapI128_modEq (n : Int) : wrapI128 n ≡ n [ZMOD 2 ^ 128] := Int.bmod_emod

theorem inI128_wrapI128 (n : Int) : InI128 (wrapI128 n) := by
  have low := @Int.le_bmod n (2 ^ 128) (by decide)
  have high := @Int.bmod_lt n (2 ^ 128) (by decide)
  unfold InI128 wrapI128
  norm_num at low high ⊢
  omega

theorem eq_of_modEq {a b : Int} (same : a ≡ b [ZMOD 2 ^ 128]) (left : InI128 a) (right : InI128 b) : a = b := by
  unfold InI128 at left right
  unfold Int.ModEq at same
  omega

theorem partsOf_append {others : List EventRow} :
    partsOf measure (rows ++ others) = partsOf measure rows ++ partsOf measure others := by
  simp [partsOf, reads]

theorem mergedExact_snoc : mergedExact measure (parts ++ [rows]) =
    joinExact (mergedExact measure parts) (sumExact (partsOf measure rows)) := by
  simp [mergedExact]

theorem mergedExact_eq (exact : ∀ part ∈ parts, (sumExact (partsOf measure part)).isSome) :
    ∃ units, mergedExact measure parts = some (units, widest (partsOf measure parts.flatten)) ∧ InI128 units ∧
      units ≡ aligned (widest (partsOf measure parts.flatten)) (partsOf measure parts.flatten) [ZMOD 2 ^ 128] := by
  induction parts using List.reverseRecOn with
  | nil => exact ⟨0, rfl, by decide, rfl⟩
  | append_singleton parts part ih =>
    obtain ⟨units, merged, -, same⟩ := ih fun p inside => exact p (mem_append_left _ inside)
    obtain ⟨total, found⟩ := Option.isSome_iff_exists.mp (exact part (by simp))
    obtain rfl := sumExact_eq found
    set before := partsOf measure parts.flatten
    set here := partsOf measure part
    have all : partsOf measure (parts ++ [part]).flatten = before ++ here := by
      rw [flatten_append, partsOf_append]
      simp [before, here]
    rw [mergedExact_snoc, merged, found, all, widest_append]
    refine ⟨_, rfl, inI128_wrapI128 _, (wrapI128_modEq _).trans ?_⟩
    rw [aligned_append, aligned_lift le_rfl (le_max_left _ (widest here)),
      aligned_lift le_rfl (le_max_right (widest before) _)]
    have lifted : ∀ (n : Int) (k : Nat), wrapI128 (n * wrapI128 (10 ^ k)) ≡ n * 10 ^ k [ZMOD 2 ^ 128] :=
      fun n k => (wrapI128_modEq _).trans ((wrapI128_modEq _).mul_left n)
    exact ((lifted _ _).trans (same.mul_right _)).add (lifted _ _)

theorem mergedExact_steady (same : parts.flatten.Perm rows)
    (steady : ∀ order : List EventRow, order.Perm rows → (sumExact (partsOf measure order)).isSome) :
    mergedExact measure parts = sumExact (partsOf measure rows) := by
  have each : ∀ part ∈ parts, (sumExact (partsOf measure part)).isSome := by
    intro part inside
    -- bring the part to the front: its total is one on the way to a total of all
    obtain ⟨front, back, rfl⟩ := append_of_mem inside
    have order : (part ++ (front ++ back).flatten).Perm rows := by
      refine List.Perm.trans ?_ same
      simp only [flatten_append, flatten_cons]
      exact perm_append_comm_assoc _ _ _
    have whole := steady _ order
    rw [partsOf_append] at whole
    exact sumExact_init whole
  obtain ⟨units, merged, fits, congruent⟩ := mergedExact_eq each
  obtain ⟨total, found⟩ := Option.isSome_iff_exists.mp (steady rows (List.Perm.refl _))
  have numbers : (partsOf measure parts.flatten).Perm (partsOf measure rows) :=
    (same.filterMap _).filterMap _
  have scales : ∀ part ∈ partsOf measure rows, part.2 < 2 ^ 32 := by
    intro part inside
    obtain ⟨value, -, known⟩ := mem_filterMap.mp inside
    exact exactParts_scale known
  have inside := (sumExact_fits scales found).1
  obtain rfl := sumExact_eq found
  rw [perm_widest numbers, perm_aligned numbers] at congruent
  rw [merged, found, perm_widest numbers, eq_of_modEq congruent fits inside]

theorem finish_mergedOf (plain : Plain measure) (same : parts.flatten.Perm rows) (steady : Steady engine measure rows) :
    (mergedOf engine measure parts).finish engine = (stateOf engine measure rows).finish engine := by
  have kinds : measure.kind = .count ∨ measure.kind = .sum ∨ measure.kind = .min ∨
      measure.kind = .max ∨ measure.kind = .countDistinct := by simpa [Plain] using plain
  rcases kinds with kind | kind | kind | kind | kind
  · have counts : (parts.map List.length).sum = rows.length := by
      rw [← length_flatten]
      exact same.length_eq
    simp only [mergedOf, stateOf, kind, counts]
  · have steady : ∀ order : List EventRow, order.Perm rows →
        (sumExact (partsOf measure order)).isSome := by simpa only [Steady, kind] using steady
    have total := mergedExact_steady same steady
    obtain ⟨exact, found⟩ := Option.isSome_iff_exists.mp (steady rows (List.Perm.refl _))
    have any : (parts.any fun part => !(reads measure part).isEmpty) = !(reads measure rows).isEmpty := by
      rw [Bool.eq_iff_iff, any_eq_true, Bool.not_eq_true', isEmpty_eq_false_iff_exists_mem]
      simp only [Bool.not_eq_true', isEmpty_eq_false_iff_exists_mem]
      constructor
      · rintro ⟨part, inside, value, held⟩
        exact ⟨value, mem_reads_of_part same inside held⟩
      · rintro ⟨value, held⟩
        obtain ⟨values, there, mine⟩ := mem_flatten.mp ((perm_reads same).mem_iff.mpr held)
        obtain ⟨part, inside, rfl⟩ := mem_map.mp there
        exact ⟨part, inside, value, mine⟩
    simp only [mergedOf, stateOf, kind, total, found, any, Accumulator.finish]
  · have steady : Foremost engine false (reads measure rows) := by simpa only [Steady, kind] using steady
    simp only [mergedOf, stateOf, kind, extremeOf_parts same steady]
  · have steady : Foremost engine true (reads measure rows) := by simpa only [Steady, kind] using steady
    simp only [mergedOf, stateOf, kind, extremeOf_parts same steady]
  · simp only [mergedOf, stateOf, kind, mergedKeys_eq same]

end

end TallyOwl.Query
