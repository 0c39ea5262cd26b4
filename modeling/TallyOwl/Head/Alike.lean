import TallyOwl.Head.Divided

/-! The answer of an aggregate, folded at once and pushed down. The two are alike however
the rows are divided as long as no sum leaves an `i128` in some order of its rows, every
extreme beats the values that differ from it, and no group has more distinct values than
the cap. -/
namespace TallyOwl.Query
open Lib RowCodec TallyOwl.Expr Locate List OrderedMap

/-- A merge answers as a fold does: the same groups with the same finished values, or a
refusal where the fold refuses. -/
def Alike (engine : Engine) (folded : Except QueryError Groups)
    (merged : Except QueryError (Option Groups)) : Prop :=
  match folded, merged with
  | .ok groups, .ok (some merged) => finished engine merged = finished engine groups
  | .error _, .error _ => True
  | _, _ => False

section
variable (engine : Engine) (plan : Plan) (rows : List EventRow)

/-- A row that no fold takes, or measures that say the same of every group however its
rows are divided. -/
def Dividable : Prop :=
  (∃ row ∈ rows, ∃ measure ∈ plan.measures, Refuses measure row) ∨
    ∀ key, ∀ measure ∈ plan.measures, Steady engine measure (rowsOf engine plan key rows)

/-- Pushing an aggregate down does not change its answer, however the rows are divided and
in whatever order the tablets reply. -/
def KeepsAnswer : Prop :=
  ∀ tablets : List (List EventRow), tablets.flatten.Perm rows →
    Alike engine (foldRows engine plan ∅ rows) (pushedDown engine plan tablets)

end

section
variable {engine : Engine} {plan : Plan} {rows : List EventRow} {tablets : List (List EventRow)}

theorem flatten_groupParts (key : List GroupKey) (same : tablets.flatten.Perm rows) :
    (groupParts engine plan key tablets).flatten.Perm (rowsOf engine plan key rows) := by
  have joined : (groupParts engine plan key tablets).flatten = rowsOf engine plan key tablets.flatten := by
    rw [groupParts, flatten_filter_ne_nil, rowsOf, filter_flatten]
    rfl
  rw [joined]
  exact same.filter _

theorem groupParts_eq_nil (key : List GroupKey) (same : tablets.flatten.Perm rows) :
    groupParts engine plan key tablets = [] ↔ rowsOf engine plan key rows = [] := by
  have flat := @flatten_groupParts engine plan _ _ key same
  constructor
  · intro empty
    rw [empty] at flat
    exact nil_perm.mp flat
  · intro empty
    rw [empty] at flat
    refine eq_nil_iff_forall_not_mem.mpr fun part inside => ?_
    have none := flatten_eq_nil_iff.mp (perm_nil.mp flat) part inside
    simpa [none] using (List.mem_filter.mp inside).2

theorem mem_of_tablet (same : tablets.flatten.Perm rows) {tablet : List EventRow}
    (inside : tablet ∈ tablets) : ∀ row ∈ tablet, row ∈ rows := fun _ held =>
  same.mem_iff.mp (mem_flatten.mpr ⟨tablet, inside, held⟩)

theorem Sized.of_tablet (sized : Sized engine plan rows) (same : tablets.flatten.Perm rows)
    {tablet : List EventRow} (inside : tablet ∈ tablets) : Sized engine plan tablet := by
  refine ⟨fun row held => sized.values row (mem_of_tablet same inside row held), ?_,
    sized.dimensions, sized.measures⟩
  have fewer : tablet.length ≤ tablets.flatten.length :=
    (sublist_flatten_of_mem inside).length_le
  rw [same.length_eq] at fewer
  exact fewer.trans_lt sized.rows

theorem Admits.of_tablet (admits : Admits plan rows) (same : tablets.flatten.Perm rows)
    {tablet : List EventRow} (inside : tablet ∈ tablets) : Admits plan tablet :=
  admits.of_subset (mem_of_tablet same inside)

theorem length_keySet_mono {few many : List PropertyValue} (inside : ∀ value ∈ few, value ∈ many) :
    (keySet engine few).entries.length ≤ (keySet engine many).entries.length := by
  refine (subperm_of_subset (keySet engine few).nodup_entries ?_).length_le
  rintro ⟨key, ⟨⟩⟩ held
  obtain ⟨value, there, keyed⟩ := mem_keySet.mp held
  exact mem_keySet.mpr ⟨value, inside value there, keyed⟩

theorem TakesAll.of_subset {part : List EventRow} (takes : TakesAll engine plan rows)
    (inside : ∀ row ∈ part, row ∈ rows) : TakesAll engine plan part := by
  intro key measure named
  have less : ∀ row ∈ rowsOf engine plan key part, row ∈ rowsOf engine plan key rows := by
    intro row held
    obtain ⟨there, keyed⟩ := List.mem_filter.mp held
    exact List.mem_filter.mpr ⟨inside row there, keyed⟩
  refine ⟨fun row held => (takes key measure named).each row (less row held), fun kind => ?_⟩
  refine (length_keySet_mono fun value held => ?_).trans ((takes key measure named).few kind)
  obtain ⟨row, there, read⟩ := mem_filterMap.mp held
  exact mem_filterMap.mpr ⟨row, less row there, read⟩

theorem not_takesAll {row : EventRow} {measure : Measure} (inside : row ∈ rows)
    (named : measure ∈ plan.measures) (refuses : Refuses measure row) : ¬ TakesAll engine plan rows :=
  fun takes => (takes (keyOf engine plan row) measure named).each row
    (List.mem_filter.mpr ⟨inside, by simp⟩) refuses

theorem finished_eq_iff {left right : Groups} : finished engine left = finished engine right ↔
    ∀ key, (left.get? key).map (List.map (·.finish engine)) = (right.get? key).map (List.map (·.finish engine)) := by
  have values : ∀ groups : Groups, finished engine groups =
      (groups.mapValues fun _ held => held.map (·.finish engine)).entries := fun _ => rfl
  simp only [values]
  constructor
  · intro same key
    have equal : (left.mapValues fun _ held => held.map (·.finish engine)) =
        right.mapValues fun _ held => held.map (·.finish engine) :=
      ext_of_mem fun x => by rw [same]
    have found := congrArg (fun groups => groups.get? key) equal
    simpa only [get?_mapValues] using found
  · intro same
    refine congrArg OrderedMap.entries (ext_of_get? fun key => ?_)
    rw [get?_mapValues, get?_mapValues]
    exact same key

theorem finished_holds {groups merged : Groups} (holds : HoldsStates engine plan rows groups)
    (joined : HoldsMerged engine plan tablets merged) (same : tablets.flatten.Perm rows) :
    finished engine merged = finished engine groups ↔
      ∀ key, rowsOf engine plan key rows ≠ [] → ∀ measure ∈ plan.measures,
        (mergedOf engine measure (groupParts engine plan key tablets)).finish engine =
          (stateOf engine measure (rowsOf engine plan key rows)).finish engine := by
  rw [finished_eq_iff]
  refine forall_congr' fun key => ?_
  simp only [holds key, joined key, groupParts_eq_nil key same]
  by_cases empty : rowsOf engine plan key rows = []
  · simp [empty]
  · simp [empty, mergedStates, statesOf]

theorem pushedDown_taken (admits : Admits plan rows) (sized : Sized engine plan rows)
    (same : tablets.flatten.Perm rows) (takes : ∀ tablet ∈ tablets, TakesAll engine plan tablet) :
    ∃ merged, pushedDown engine plan tablets = .ok (some merged) ∧ HoldsMerged engine plan tablets merged :=
  pushedDown_ok (fun _ inside => admits.of_tablet same inside)
    (fun _ inside => sized.of_tablet same inside) takes

theorem keepsAnswer_of_dividable (admits : Admits plan rows) (sized : Sized engine plan rows)
    (dividable : Dividable engine plan rows) : KeepsAnswer engine plan rows := by
  intro tablets same
  by_cases refused : ∃ row ∈ rows, ∃ measure ∈ plan.measures, Refuses measure row
  · obtain ⟨row, inside, measure, named, refuses⟩ := refused
    obtain ⟨e, folded⟩ := (foldRows_eq admits).2 (@not_takesAll engine plan _ _ _ inside named refuses)
    obtain ⟨tablet, there, held⟩ := mem_flatten.mp (same.mem_iff.mpr inside)
    obtain ⟨e', merged⟩ := pushedDown_error (fun _ inside => admits.of_tablet same inside)
      (fun _ inside => sized.of_tablet same inside) ⟨tablet, there, not_takesAll held named refuses⟩
    rw [folded, merged]
    trivial
  · have steady := dividable.resolve_left refused
    have takes : TakesAll engine plan rows := by
      refine fun key measure named => ⟨fun row held refuses => ?_, fun kind => ?_⟩
      · exact refused ⟨row, (List.mem_filter.mp held).1, measure, named, refuses⟩
      · simpa only [Steady, kind] using steady key measure named
    obtain ⟨groups, folded, holds⟩ := (foldRows_eq admits).1 takes
    obtain ⟨merged, pushed, joined⟩ := pushedDown_taken admits sized same fun tablet inside =>
      takes.of_subset (mem_of_tablet same inside)
    rw [folded, pushed]
    refine (finished_holds holds joined same).mpr fun key _ measure named => ?_
    exact finish_mergedOf (admits.plain measure named) (flatten_groupParts key same)
      (steady key measure named)

end

/-! The other way round: rows divided one by one, and rows kept in one other order, show
every measure that is not steady. -/

section
variable {engine : Engine} {plan : Plan} {measure : Measure} {rows : List EventRow}

theorem flatten_singles (rows : List EventRow) : (rows.map fun row => [row]).flatten = rows := by
  induction rows with
  | nil => rfl
  | cons row rows ih => simpa using ih

theorem groupParts_singles (key : List GroupKey) : groupParts engine plan key (rows.map fun row => [row]) =
      (rowsOf engine plan key rows).map fun row => [row] := by
  induction rows with
  | nil => rfl
  | cons row rows ih =>
    by_cases mine : keyOf engine plan row = key
    · simpa [groupParts, rowsOf, mine] using ih
    · simpa [groupParts, rowsOf, mine] using ih

theorem groupParts_one (key : List GroupKey) (some : rowsOf engine plan key rows ≠ []) :
    groupParts engine plan key [rows] = [rowsOf engine plan key rows] := by
  simp [groupParts, some]

theorem takesAll_single {row : EventRow} (taken : ∀ measure ∈ plan.measures, ¬ Refuses measure row) :
    TakesAll engine plan [row] := by
  refine fun key measure named => ⟨fun r held => ?_, fun _ => ?_⟩
  · obtain rfl := mem_singleton.mp (List.mem_filter.mp held).1
    exact taken measure named
  · refine (length_keySet_le _).trans ((length_filterMap_le _ _).trans ?_)
    exact (length_filter_le _ _).trans (show 1 ≤ distinctCap by decide)

theorem KeepsAnswer.finish (keeps : KeepsAnswer engine plan rows) (admits : Admits plan rows)
    (sized : Sized engine plan rows) {tablets : List (List EventRow)} (same : tablets.flatten.Perm rows)
    (takes : ∀ tablet ∈ tablets, TakesAll engine plan tablet) :
    TakesAll engine plan rows ∧ ∀ key, rowsOf engine plan key rows ≠ [] → ∀ measure ∈ plan.measures,
      (mergedOf engine measure (groupParts engine plan key tablets)).finish engine =
        (stateOf engine measure (rowsOf engine plan key rows)).finish engine := by
  have alike := keeps tablets same
  obtain ⟨merged, pushed, joined⟩ := pushedDown_taken admits sized same takes
  rw [pushed] at alike
  by_cases taken : TakesAll engine plan rows
  · obtain ⟨groups, folded, holds⟩ := (foldRows_eq admits).1 taken
    rw [folded] at alike
    exact ⟨taken, (finished_holds holds joined same).mp alike⟩
  · obtain ⟨e, folded⟩ := (foldRows_eq admits).2 taken
    rw [folded] at alike
    exact alike.elim

theorem KeepsAnswer.get? (keeps : KeepsAnswer engine plan rows) {tablets : List (List EventRow)}
    (same : tablets.flatten.Perm rows) {groups merged : Groups} (folded : foldRows engine plan ∅ rows = .ok groups)
    (pushed : pushedDown engine plan tablets = .ok (some merged)) (key : List GroupKey) :
    (merged.get? key).map (List.map (·.finish engine)) = (groups.get? key).map (List.map (·.finish engine)) := by
  have alike := keeps tablets same
  rw [folded, pushed] at alike
  exact finished_eq_iff.mp alike key

end

section
variable {engine : Engine} {largest : Bool} {measure : Measure} {rows : List EventRow}

theorem foldl_towards_mem {held : Option PropertyValue} {values : List PropertyValue} {value : PropertyValue}
    (found : values.foldl (towards engine largest) held = some value) : held = some value ∨ value ∈ values := by
  induction values generalizing held with
  | nil => exact .inl found
  | cons first values ih =>
    rcases ih found with now | later
    · unfold towards at now
      split at now
      · exact .inr (by simp [Option.some.inj now])
      · exact .inl now
    · exact .inr (mem_cons_of_mem _ later)

theorem foldl_towards_stays {held best : PropertyValue} {values : List PropertyValue}
    (all : ∀ value ∈ values, value = best) (loses : ¬ Beats engine largest best held) :
    values.foldl (towards engine largest) (some held) = some held := by
  induction values with
  | nil => rfl
  | cons first values ih =>
    obtain ⟨rfl, later⟩ := forall_mem_cons.mp all
    have stays : replaces engine largest first (some held) = false := by
      rw [Bool.eq_false_iff, Ne, replaces_iff]
      exact loses
    rw [foldl_cons, towards, stays]
    exact ih later

theorem foremost_of_orders {answer : PropertyValue} (every : ∀ order : List EventRow, order.Perm rows →
      (extremeOf engine largest (reads measure order)).getD .null = answer) :
    Foremost engine largest (reads measure rows) := by
  by_cases empty : reads measure rows = []
  · exact .inl empty
  have extreme : ∀ order : List EventRow, order.Perm rows →
      extremeOf engine largest (reads measure order) = some answer := by
    intro order same
    have some : reads measure order ≠ [] := fun none =>
      empty (nil_perm.mp (none ▸ (same.filterMap (valueOf measure))))
    obtain ⟨value, found⟩ := Option.isSome_iff_exists.mp (@extremeOf_isSome engine largest _ some)
    rw [found, ← every order same, found]
    rfl
  refine .inr ⟨answer, extremeOf_mem (extreme rows (List.Perm.refl _)), fun other inside different => ?_⟩
  by_contra loses
  obtain ⟨row, held, read⟩ := mem_filterMap.mp inside
  obtain ⟨front, back, rfl⟩ := append_of_mem held
  -- the other value first, then all that read the answer: the answer never comes back
  set mine : EventRow → Bool := fun r => decide (valueOf measure r = some answer)
  have order : (row :: ((front ++ back).filter mine ++ (front ++ back).filter fun r => !mine r)).Perm
      (front ++ row :: back) :=
    ((filter_append_perm mine (front ++ back)).cons row).trans perm_middle.symm
  have found := extreme _ order
  have split : reads measure (row :: ((front ++ back).filter mine ++
      (front ++ back).filter fun r => !mine r)) = other :: (reads measure ((front ++ back).filter mine) ++
        reads measure ((front ++ back).filter fun r => !mine r)) := by
    simp [reads, read]
  have bests : ∀ value ∈ reads measure ((front ++ back).filter mine), value = answer := by
    intro value there
    obtain ⟨r, kept, reads⟩ := mem_filterMap.mp there
    have same : valueOf measure r = some answer := by simpa [mine] using (List.mem_filter.mp kept).2
    exact Option.some.inj (reads.symm.trans same)
  have stays := foldl_towards_stays bests loses
  rw [split, extremeOf, foldl_cons, foldl_append] at found
  have first : towards engine largest none other = some other := rfl
  rw [first, stays] at found
  rcases foldl_towards_mem found with same | there
  · exact different (Option.some.inj same)
  · obtain ⟨r, kept, reads⟩ := mem_filterMap.mp there
    have not : valueOf measure r ≠ some answer := by simpa [mine] using (List.mem_filter.mp kept).2
    exact not reads

end

/-! A sum over one row is exact. -/

section
variable {engine : Engine} {plan : Plan} {measure : Measure} {rows : List EventRow}

theorem exactParts_fits {value : PropertyValue} {part : Int × Nat} (storable : Storable engine value)
    (found : exactParts value = some part) : InI128 part.1 := by
  cases value with
  | integer v =>
    cases found
    have fits : InI64 v := storable
    unfold InI64 at fits
    unfold InI128
    omega
  | unsigned v =>
    cases found
    have fits : v < 2 ^ 64 := storable
    unfold InI128
    omega
  | decimal text =>
    simp only [exactParts, decimalParts] at found
    split at found
    · cases found
    · simp only [Option.bind_eq_bind, Option.bind_eq_some_iff] at found
      obtain ⟨digits, -, mantissa, read, same⟩ := found
      cases same
      obtain ⟨low, high⟩ := mantissaOf_fits read
      unfold InI128
      split <;> constructor <;> simp only <;> omega
  | _ => cases found

theorem pow_fits {scale : Nat} (narrow : scale ≤ 38) : InI128 (10 ^ scale) := by
  have most : (10 : Int) ^ scale ≤ 10 ^ 38 := pow_le_pow_right₀ (by decide) narrow
  have least : (0 : Int) < 10 ^ scale := by positivity
  unfold InI128
  omega

theorem sumExact_one {part : Int × Nat} (fits : InI128 part.1) (narrow : part.2 ≤ 38) :
    sumExact [part] = some part := by
  obtain ⟨units, scale⟩ := part
  have power : checkedPow scale = some (10 ^ scale) := by
    rw [checkedPow, checkI128, if_pos (pow_fits narrow)]
  have zero : checkI128 0 = some 0 := rfl
  have one : checkedPow 0 = some 1 := rfl
  have whole : checkI128 units = some units := by rw [checkI128, if_pos fits]
  simp [sumExact, addExact, lift, power, zero, one, whole]

theorem partsOf_single_exact {row : EventRow} (storable : StorableRows engine [row])
    (narrow : ∀ part ∈ partsOf measure [row], part.2 ≤ 38) : (sumExact (partsOf measure [row])).isSome := by
  cases read : valueOf measure row with
  | none =>
    have none : partsOf measure [row] = [] := by simp [partsOf, reads, read]
    rw [none]
    rfl
  | some value =>
    have held : value ∈ reads measure [row] := mem_filterMap.mpr ⟨row, by simp, read⟩
    cases found : exactParts value with
    | none =>
      have none : partsOf measure [row] = [] := by simp [partsOf, reads, read, found]
      rw [none]
      rfl
    | some part =>
      have one : partsOf measure [row] = [part] := by simp [partsOf, reads, read, found]
      rw [one] at narrow ⊢
      have fits := exactParts_fits (storable_reads storable value held) found
      rw [sumExact_one fits (narrow part (by simp))]
      rfl

end

section
variable {engine : Engine} {plan : Plan} {measure : Measure} {rows : List EventRow}

theorem rowsOf_regroup {key : List GroupKey} {order : List EventRow} (same : order.Perm (rowsOf engine plan key rows)) :
    (order ++ rows.filter fun row => !decide (keyOf engine plan row = key)).Perm rows ∧
      rowsOf engine plan key (order ++ rows.filter fun row => !decide (keyOf engine plan row = key)) = order := by
  constructor
  · exact (same.append_right _).trans (filter_append_perm _ rows)
  · have mine : rowsOf engine plan key order = order := by
      refine filter_eq_self.mpr fun row held => ?_
      exact (List.mem_filter.mp (same.mem_iff.mp held)).2
    have none : rowsOf engine plan key (rows.filter fun row => !decide (keyOf engine plan row = key)) = [] := by
      refine filter_eq_nil_iff.mpr fun row held => ?_
      simpa using (List.mem_filter.mp held).2
    rw [rowsOf] at mine none ⊢
    rw [filter_append, mine, none, append_nil]

theorem steady_nil : Steady engine measure [] := by
  cases kind : measure.kind <;> simp only [Steady, kind]
  · intro order same
    rw [perm_nil.mp same]
    rfl
  · exact .inl rfl
  · exact .inl rfl
  · exact Nat.zero_le _

theorem partsOf_subset {part : List EventRow} (inside : ∀ row ∈ part, row ∈ rows) :
    ∀ number ∈ partsOf measure part, number ∈ partsOf measure rows := by
  intro number found
  obtain ⟨value, held, known⟩ := mem_filterMap.mp found
  obtain ⟨row, there, read⟩ := mem_filterMap.mp held
  exact mem_filterMap.mpr ⟨value, mem_filterMap.mpr ⟨row, inside row there, read⟩, known⟩

theorem extremes_singles (largest : Bool) (order : List EventRow) :
    (order.map fun row => [row]).filterMap (fun part => extremeOf engine largest (reads measure part)) =
      reads measure order := by
  rw [filterMap_map]
  refine filterMap_congr fun row _ => ?_
  show extremeOf engine largest (reads measure [row]) = valueOf measure row
  rw [reads, filterMap_single]
  cases valueOf measure row <;> rfl

theorem dividable_of_keepsAnswer (admits : Admits plan rows) (sized : Sized engine plan rows)
    (narrow : ∀ measure ∈ plan.measures, ∀ part ∈ partsOf measure rows, part.2 ≤ 38)
    (keeps : KeepsAnswer engine plan rows) : Dividable engine plan rows := by
  by_cases refused : ∃ row ∈ rows, ∃ measure ∈ plan.measures, Refuses measure row
  · exact .inl refused
  refine .inr fun key measure named => ?_
  have alone : ∀ row ∈ rows, TakesAll engine plan [row] := fun row inside =>
    takesAll_single fun m there refuses => refused ⟨row, inside, m, there, refuses⟩
  -- the rows one by one, in any order
  have singles : ∀ order : List EventRow, order.Perm rows → TakesAll engine plan rows ∧
      (rowsOf engine plan key rows ≠ [] →
        (mergedOf engine measure ((rowsOf engine plan key order).map fun row => [row])).finish engine =
          (stateOf engine measure (rowsOf engine plan key rows)).finish engine) := by
    intro order same
    have flat : (order.map fun row => [row]).flatten.Perm rows := by
      rw [flatten_singles]
      exact same
    obtain ⟨takes, shown⟩ := keeps.finish admits sized flat fun tablet inside => by
      obtain ⟨row, held, rfl⟩ := mem_map.mp inside
      exact alone row (same.mem_iff.mp held)
    refine ⟨takes, fun some => ?_⟩
    rw [← groupParts_singles]
    exact shown key some measure named
  obtain ⟨takes, -⟩ := singles rows (List.Perm.refl _)
  -- the rows of the group in one order, on one tablet
  have together : ∀ order : List EventRow, order.Perm (rowsOf engine plan key rows) → order ≠ [] →
      (mergedOf engine measure [order]).finish engine =
        (stateOf engine measure (rowsOf engine plan key rows)).finish engine := by
    intro order same some
    obtain ⟨all, mine⟩ := rowsOf_regroup same
    obtain ⟨-, shown⟩ := @KeepsAnswer.finish engine plan rows keeps admits sized [_]
      (by simpa using all) fun tablet inside => by
        obtain rfl := mem_singleton.mp inside
        exact takes.of_subset fun row held => all.mem_iff.mp held
    have here := shown key (fun empty => some (perm_nil.mp (empty ▸ same))) measure named
    rwa [groupParts_one key (by rw [mine]; exact some), mine] at here
  by_cases empty : rowsOf engine plan key rows = []
  · exact empty ▸ steady_nil
  have foremost : ∀ largest, (∀ rows, mergedOf engine measure rows = .extreme largest
      (extremeOf engine largest (rows.filterMap fun part => extremeOf engine largest (reads measure part)))) →
      Foremost engine largest (reads measure (rowsOf engine plan key rows)) := by
    intro largest merged
    refine @foremost_of_orders engine largest measure _
      ((stateOf engine measure (rowsOf engine plan key rows)).finish engine) fun order same => ?_
    obtain ⟨all, mine⟩ := rowsOf_regroup same
    have shown := (singles _ all).2 empty
    rwa [mine, merged, extremes_singles] at shown
  have kinds : measure.kind = .count ∨ measure.kind = .sum ∨ measure.kind = .min ∨
      measure.kind = .max ∨ measure.kind = .countDistinct := by
    simpa [Plain] using admits.plain measure named
  rcases kinds with kind | kind | kind | kind | kind
  · simp only [Steady, kind]
  · simp only [Steady, kind]
    intro order same
    by_contra inexact
    have nothing : sumExact (partsOf measure order) = none := by simpa using inexact
    have values : reads measure order ≠ [] := by
      intro none
      rw [partsOf, none] at nothing
      cases nothing
    have held : reads measure (rowsOf engine plan key rows) ≠ [] := fun none =>
      values (perm_nil.mp (none ▸ same.filterMap (valueOf measure)))
    have exact : ∀ part ∈ (rowsOf engine plan key rows).map fun row => [row],
        (sumExact (partsOf measure part)).isSome := by
      intro part inside
      obtain ⟨row, there, rfl⟩ := mem_map.mp inside
      have mem : ∀ r ∈ [row], r ∈ rows := by
        intro r here
        obtain rfl := mem_singleton.mp here
        exact (List.mem_filter.mp there).1
      refine partsOf_single_exact (fun r here => sized.values r (mem r here)) fun part found => ?_
      exact narrow measure named part (partsOf_subset mem part found)
    obtain ⟨units, total, -⟩ := mergedExact_eq exact
    have shown := ((singles rows (List.Perm.refl _)).2 empty).trans (together order same fun none =>
      values (by rw [none]; rfl)).symm
    have any : ((rowsOf engine plan key rows).map fun row => [row]).any
        (fun part => !(reads measure part).isEmpty) = true := by
      obtain ⟨value, there⟩ := exists_mem_of_ne_nil _ held
      obtain ⟨row, mem, read⟩ := mem_filterMap.mp there
      refine any_eq_true.mpr ⟨[row], mem_map.mpr ⟨row, mem, rfl⟩, ?_⟩
      simp [reads, read]
    have whole : mergedExact measure [order] = none := by
      rw [← nil_append [order], mergedExact_snoc, nothing]
      rfl
    simp [mergedOf, kind, Accumulator.finish, any, total, whole, values] at shown
  · simp only [Steady, kind]
    exact foremost false fun rows => by simp only [mergedOf, kind]
  · simp only [Steady, kind]
    exact foremost true fun rows => by simp only [mergedOf, kind]
  · simp only [Steady, kind]
    exact (takes key measure named).few kind

end

/-- Pushing an aggregate down keeps its answer exactly where its measures can be divided. A
decimal arrives with at most 38 digits after the point, which is what the way back rests
on. -/
theorem pushed_down_keeps_answer (engine : Engine) (plan : Plan) (rows : List EventRow)
    (admits : Admits plan rows) (sized : Sized engine plan rows)
    (narrow : ∀ measure ∈ plan.measures, ∀ part ∈ partsOf measure rows, part.2 ≤ 38) :
    KeepsAnswer engine plan rows ↔ Dividable engine plan rows :=
  ⟨dividable_of_keepsAnswer admits sized narrow, keepsAnswer_of_dividable admits sized⟩

/-- The machine's floats, a calendar of one period, and no series. -/
def plainEngine : Engine where
  floats := machineFloats
  startOf _ _ _ := 0
  startOf_fits _ _ _ := by decide
  admits _ _ _ := .ok ()
  finishSeries _ _ := .null

def pricesSummed : Measure := ⟨.sum, some ⟨"price", none, none⟩, none, none, "total"⟩

def priceTotal : Plan := ⟨.occurredAt, none, [], [pricesSummed]⟩

def soldAt (price : String) : EventRow :=
  { EventRow.new 1 "event" "checkout" 5 with
    projectId := 1, properties := [("price", .decimal price, "client")] }

theorem storable_soldAt {price : String} (fits : TextFits price) :
    ∀ field value, (Expr.read field (soldAt price)).value = some value → Storable plainEngine value := by
  intro field value found
  unfold Expr.read at found
  cases column : readBuiltIn field.name (soldAt price) with
  | some outcome =>
    have columns : ∀ v, outcome.value = some v → v = .bytes (Id.bytes 0) ∨ v = .bytes (Id.bytes 1) ∨
        v = .text "event" ∨ v = .text "checkout" ∨ v = .integer 5 ∨ v = .integer 0 := by
      unfold readBuiltIn at column
      split at column <;> cases column <;> rintro v ⟨⟩ <;> simp [soldAt, EventRow.new]
    rw [column] at found
    rcases columns value found with rfl | rfl | rfl | rfl | rfl | rfl <;> unfold Storable <;> decide
  | none =>
    rw [column] at found
    simp only [soldAt, find?_cons, find?_nil] at found
    split at found
    · cases found
    · rename_i key held origin there
      split at there
      · obtain rfl : held = .decimal price := by
          have same := Option.some.inj there
          simp only [Prod.mk.injEq] at same
          exact same.2.1.symm
        split at found
        · cases found
        · split at found
          · cases found
          · cases found
            exact fits
      · cases there

theorem admits_sales (prices : List String) : Admits priceTotal (prices.map soldAt) := by
  refine ⟨by decide, fun measure named _ row held bits => ?_⟩
  obtain rfl := mem_singleton.mp named
  obtain ⟨price, -, rfl⟩ := mem_map.mp held
  exact fun same => by cases same

theorem sized_sales {prices : List String} (fits : ∀ price ∈ prices, TextFits price)
    (few : prices.length < 2 ^ 64) : Sized plainEngine priceTotal (prices.map soldAt) := by
  refine ⟨fun row held => ?_, by simpa using few, by decide, by decide⟩
  obtain ⟨price, there, rfl⟩ := mem_map.mp held
  exact storable_soldAt (fits price there)

theorem pushed_down_keeps_answer_once : KeepsAnswer plainEngine priceTotal (["1.50"].map soldAt) ↔
      Dividable plainEngine priceTotal (["1.50"].map soldAt) :=
  pushed_down_keeps_answer plainEngine priceTotal _ (admits_sales ["1.50"])
    (sized_sales (by decide) (by decide)) (by decide +kernel)

/-- Two sales whose total is one more than an `i128` holds. -/
def dearest : List EventRow := ["170141183460469231731687303715884105727", "1"].map soldAt

/-- The sum over two tablets wraps where the sum at once says it is inexact. -/
theorem pushed_down_total_wraps : (∃ groups merged bits, foldRows plainEngine priceTotal ∅ dearest = .ok groups ∧
      pushedDown plainEngine priceTotal (dearest.map fun row => [row]) = .ok (some merged) ∧
      (groups.get? []).map (List.map (·.finish plainEngine)) = some [.float bits] ∧
      (merged.get? []).map (List.map (·.finish plainEngine)) =
        some [.decimal "-170141183460469231731687303715884105728"]) ∧ ¬ KeepsAnswer plainEngine priceTotal dearest := by
  have admits : Admits priceTotal dearest := admits_sales _
  have sized : Sized plainEngine priceTotal dearest := sized_sales (by decide) (by decide)
  have taken : ∀ row ∈ dearest, ∀ measure ∈ priceTotal.measures, ¬ Refuses measure row := by
    intro row held measure named
    obtain rfl := List.mem_singleton.mp named
    rintro ⟨-, absent | ⟨-, value, read, unknown⟩⟩
    · cases absent
    · revert unknown
      rcases List.mem_pair.mp held with rfl | rfl <;> cases read <;> decide +kernel
  have alone : ∀ tablet ∈ dearest.map fun row => [row], TakesAll plainEngine priceTotal tablet := by
    intro tablet inside
    obtain ⟨row, held, rfl⟩ := List.mem_map.mp inside
    exact takesAll_single (taken row held)
  have flat : (dearest.map fun row => [row]).flatten.Perm dearest := by rw [flatten_singles]
  have takes : TakesAll plainEngine priceTotal dearest := by
    refine fun key measure named => ⟨fun row held => ?_, fun kind => ?_⟩
    · exact taken row (List.mem_filter.mp held).1 measure named
    · obtain rfl := List.mem_singleton.mp named
      cases kind
  obtain ⟨groups, folded, holds⟩ := (foldRows_eq admits).1 takes
  obtain ⟨merged, pushed, joined⟩ := pushedDown_taken admits sized flat alone
  have all : rowsOf plainEngine priceTotal [] dearest = dearest := rfl
  have float : (groups.get? []).map (List.map (·.finish plainEngine)) =
      some [.float (floatTotal plainEngine (reads pricesSummed dearest))] := by
    have inexact : sumExact (partsOf pricesSummed dearest) = none := by decide +kernel
    have any : (reads pricesSummed dearest).isEmpty = false := rfl
    rw [holds [], all, if_neg (by simp [dearest])]
    show some [(stateOf plainEngine pricesSummed dearest).finish plainEngine] = _
    simp only [stateOf, pricesSummed, Accumulator.finish] at inexact any ⊢
    rw [inexact, any]
    rfl
  have decimal : (merged.get? []).map (List.map (·.finish plainEngine)) =
      some [.decimal "-170141183460469231731687303715884105728"] := by
    have wrapped : mergedExact pricesSummed (dearest.map fun row => [row]) = some (-2 ^ 127, 0) := by
      decide +kernel
    have any : ((dearest.map fun row => [row]).any fun part => !(reads pricesSummed part).isEmpty) =
      true := rfl
    have shown : render (-2 ^ 127) 0 = "-170141183460469231731687303715884105728" := by decide +kernel
    rw [joined [], groupParts_singles, all, if_neg (by simp [dearest])]
    show some [(mergedOf plainEngine pricesSummed _).finish plainEngine] = _
    simp only [mergedOf, pricesSummed, Accumulator.finish] at wrapped any ⊢
    rw [wrapped, any, ← shown]
    rfl
  refine ⟨⟨groups, merged, _, folded, pushed, float, decimal⟩, fun keeps => ?_⟩
  have same := keeps.get? flat folded pushed []
  rw [float, decimal] at same
  simp only [Option.some.injEq, List.cons.injEq, reduceCtorEq, false_and] at same

end TallyOwl.Query
