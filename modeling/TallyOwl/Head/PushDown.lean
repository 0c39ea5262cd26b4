import Mathlib.Data.Nat.Digits.Defs
import TallyOwl.Head.Aggregate

/-! Whether pushing an aggregate down changes its answer. One measure over the rows of one
group is folded to a state that its rows determine; the groups of a fold are these states
side by side, and so are the groups of a merge. What is left is one measure over one
group, folded at once or in parts. -/
namespace TallyOwl.Query
open Lib RowCodec TallyOwl.Expr Cbor Locate List

def Plain (measure : Measure) : Prop :=
  measure.kind ∈ [MeasureKind.count, .sum, .min, .max, .countDistinct]

instance (measure : Measure) : Decidable (Plain measure) := inferInstanceAs (Decidable (_ ∈ _))

def valueOf (measure : Measure) (row : EventRow) : Option PropertyValue :=
  measure.field.bind fun field => (read field row).value

def reads (measure : Measure) (rows : List EventRow) : List PropertyValue :=
  rows.filterMap (valueOf measure)

def Refuses (measure : Measure) (row : EventRow) : Prop :=
  measure.kind ≠ .count ∧ (measure.field = none ∨
    measure.kind = .sum ∧ ∃ value, valueOf measure row = some value ∧ exactParts value = none)

def Exact (measure : Measure) (rows : List EventRow) : Prop :=
  measure.kind = .sum → ∀ row ∈ rows, ∀ bits, valueOf measure row ≠ some (.float bits)

def sumExact (parts : List (Int × Nat)) : Option (Int × Nat) := parts.foldlM addExact (0, 0)

def partsOf (measure : Measure) (rows : List EventRow) : List (Int × Nat) :=
  (reads measure rows).filterMap exactParts

section
variable (engine : Engine)

def floatTotal (values : List PropertyValue) : UInt64 :=
  values.foldl (fun total value =>
    engine.floats.add total ((asFloat engine.floats value).getD 0)) 0

def extremeOf (largest : Bool) (values : List PropertyValue) : Option PropertyValue :=
  values.foldl (towards engine largest) none

def keySet (values : List PropertyValue) : OrderedMap GroupKey Unit :=
  values.foldl (fun seen value =>
    seen.insert (GroupKey.of engine.floats.display (some value)) ()) ∅

def stateOf (measure : Measure) (rows : List EventRow) : Accumulator :=
  match measure.kind with
  | .count => .count (rows.length % 2 ^ 64)
  | .sum => .sum (sumExact (partsOf measure rows)) (floatTotal engine (reads measure rows)) false
      (!(reads measure rows).isEmpty)
  | .min => .extreme false (extremeOf engine false (reads measure rows))
  | .max => .extreme true (extremeOf engine true (reads measure rows))
  | .countDistinct => .distinct (keySet engine (reads measure rows))
  | _ => .new measure

structure Takes (measure : Measure) (rows : List EventRow) : Prop where
  each : ∀ row ∈ rows, ¬ Refuses measure row
  few : measure.kind = .countDistinct →
    (keySet engine (reads measure rows)).entries.length ≤ distinctCap

end

section
variable {engine : Engine} {measure : Measure} {rows : List EventRow} {row : EventRow}

theorem reads_snoc : reads measure (rows ++ [row]) = reads measure rows ++ (valueOf measure row).toList := by
  cases found : valueOf measure row <;> simp [reads, found]

theorem stateOf_nil : stateOf engine measure [] = .new measure := by
  cases kind : measure.kind <;> simp only [stateOf, Accumulator.new, kind] <;> rfl

theorem keySet_snoc (values : List PropertyValue) (value : PropertyValue) : keySet engine (values ++ [value]) =
      (keySet engine values).insert (GroupKey.of engine.floats.display (some value)) () := by
  simp [keySet]

theorem Takes.init (takes : Takes engine measure (rows ++ [row])) : Takes engine measure rows := by
  refine ⟨fun r inside => takes.each r (mem_append_left _ inside), fun kind => ?_⟩
  have few := takes.few kind
  rw [reads_snoc] at few
  cases found : valueOf measure row with
  | none => simpa [found] using few
  | some value =>
    rw [found, Option.toList_some, keySet_snoc, OrderedMap.length_insert] at few
    split at few <;> omega

theorem sumExact_snoc (parts : List (Int × Nat)) (part : Int × Nat) :
    sumExact (parts ++ [part]) = (sumExact parts).bind fun held => addExact held part := by
  simp only [sumExact, foldlM_append, foldlM_cons, foldlM_nil, bind_pure,
    Option.bind_eq_bind]

variable {value : PropertyValue}

theorem addValue_sum {exact : Option (Int × Nat)} {inexact : UInt64} {sawAny : Bool}
    (number : ∀ bits, value ≠ .float bits) :
    (Accumulator.sum exact inexact false sawAny).addValue engine measure value =
      match exactParts value with
      | some part => .ok (.sum (exact.bind fun held => addExact held part)
          (engine.floats.add inexact ((asFloat engine.floats value).getD 0)) false true)
      | none => .error (sumsNoNumber measure) := by
  cases value with
  | float bits => exact (number bits rfl).elim
  | _ => rfl

theorem Plain.reading (plain : Plain measure) (counts : measure.kind ≠ .count) :
    measure.kind = .sum ∨ measure.kind = .min ∨ measure.kind = .max ∨ measure.kind = .countDistinct := by
  simpa [Plain, counts] using plain

theorem add_reading (plain : Plain measure) (counts : measure.kind ≠ .count) :
    (stateOf engine measure rows).add engine measure row =
      match measure.field with
      | none => .error (needsField measure)
      | some _ =>
        match valueOf measure row with
        | none => .ok (stateOf engine measure rows)
        | some value => (stateOf engine measure rows).addValue engine measure value := by
  cases named : measure.field with
  | none =>
    rcases plain.reading counts with kind | kind | kind | kind <;>
      simp [stateOf, kind, Accumulator.add, named]
  | some field =>
    simp only [valueOf, named, Option.bind_some]
    rcases plain.reading counts with kind | kind | kind | kind <;>
      simp only [stateOf, kind, Accumulator.add, named] <;>
      cases (Expr.read field row).value <;> rfl

theorem stateOf_unread (counts : measure.kind ≠ .count) (unread : valueOf measure row = none) :
    stateOf engine measure (rows ++ [row]) = stateOf engine measure rows := by
  have same : reads measure (rows ++ [row]) = reads measure rows := by simp [reads_snoc, unread]
  cases kind : measure.kind <;> simp_all [stateOf, partsOf]

theorem takes_unread {field : Field} (named : measure.field = some field) (unread : valueOf measure row = none)
    (before : Takes engine measure rows) : Takes engine measure (rows ++ [row]) := by
  refine ⟨fun r inside => ?_, fun kind => ?_⟩
  · rcases mem_append.mp inside with old | new
    · exact before.each r old
    · obtain rfl := mem_singleton.mp new
      rintro ⟨-, absent | ⟨-, value, found, -⟩⟩
      · rw [named] at absent
        cases absent
      · rw [unread] at found
        cases found
  · rw [reads_snoc, unread]
    simpa using before.few kind

theorem addValue_stateOf (plain : Plain measure)
    (counts : measure.kind ≠ .count) (found : valueOf measure row = some value)
    (exact : Exact measure (rows ++ [row])) (takes : Takes engine measure (rows ++ [row])) :
    (stateOf engine measure rows).addValue engine measure value = .ok (stateOf engine measure (rows ++ [row])) := by
  have more : reads measure (rows ++ [row]) = reads measure rows ++ [value] := by
    rw [reads_snoc, found]
    rfl
  rcases plain.reading counts with kind | kind | kind | kind
  · have number : ∀ bits, value ≠ .float bits := by
      rintro bits rfl
      exact exact kind row (by simp) bits found
    obtain ⟨part, known⟩ : ∃ part, exactParts value = some part := by
      by_contra none
      refine takes.each row (by simp) ⟨counts, .inr ⟨kind, value, found, ?_⟩⟩
      exact Option.eq_none_iff_forall_ne_some.mpr fun part known => none ⟨part, known⟩
    simp only [stateOf, kind, addValue_sum number, known, partsOf, more, filterMap_append]
    simp [known, sumExact_snoc, floatTotal]
  · simp [stateOf, kind, Accumulator.addValue, more, extremeOf]
  · simp [stateOf, kind, Accumulator.addValue, more, extremeOf]
  · have few := takes.few kind
    rw [more, keySet_snoc, OrderedMap.length_insert] at few
    simp only [stateOf, kind, Accumulator.addValue, more, keySet_snoc]
    refine if_neg fun full => ?_
    rw [if_pos full.2] at few
    omega

theorem takes_read {field : Field} (named : measure.field = some field) (found : valueOf measure row = some value)
    (exact : Exact measure (rows ++ [row])) (before : Takes engine measure rows)
    (added : ∀ e, (stateOf engine measure rows).addValue engine measure value ≠ .error e) :
    Takes engine measure (rows ++ [row]) := by
  refine ⟨fun r inside => ?_, fun kind => ?_⟩
  · rcases mem_append.mp inside with old | new
    · exact before.each r old
    · obtain rfl := mem_singleton.mp new
      rintro ⟨-, absent | ⟨kind, other, read, unknown⟩⟩
      · rw [named] at absent
        cases absent
      · obtain rfl := Option.some.inj (found.symm.trans read)
        have number : ∀ bits, value ≠ .float bits := by
          rintro bits rfl
          exact exact kind r (by simp) bits found
        refine added (sumsNoNumber measure) ?_
        simp only [stateOf, kind, addValue_sum number, unknown]
  · rw [reads_snoc, found, Option.toList_some, keySet_snoc, OrderedMap.length_insert]
    have few := before.few kind
    split
    · rename_i fresh
      by_contra full
      refine added (tooManyDistinct measure) ?_
      simp only [stateOf, kind, Accumulator.addValue]
      exact if_pos ⟨by omega, fresh⟩
    · exact few

theorem add_stateOf (plain : Plain measure) (exact : Exact measure (rows ++ [row]))
    (before : Takes engine measure rows) : (Takes engine measure (rows ++ [row]) →
      (stateOf engine measure rows).add engine measure row = .ok (stateOf engine measure (rows ++ [row]))) ∧
    (¬ Takes engine measure (rows ++ [row]) →
      ∃ e, (stateOf engine measure rows).add engine measure row = .error e) := by
  by_cases counts : measure.kind = .count
  · have all : Takes engine measure (rows ++ [row]) :=
      ⟨fun _ _ refused => refused.1 counts, fun kind => by rw [counts] at kind; cases kind⟩
    refine ⟨fun _ => ?_, fun refused => absurd all refused⟩
    simp [stateOf, counts, Accumulator.add, Nat.add_mod]
  rw [add_reading plain counts]
  cases named : measure.field with
  | none =>
    have refuses : Refuses measure row := ⟨counts, .inl named⟩
    exact ⟨fun takes => absurd refuses (takes.each row (by simp)), fun _ => ⟨_, rfl⟩⟩
  | some field =>
    cases found : valueOf measure row with
    | none =>
      refine ⟨fun _ => ?_, fun refused => absurd (takes_unread named found before) refused⟩
      rw [stateOf_unread counts found]
    | some value =>
      refine ⟨addValue_stateOf plain counts found exact, fun refused => ?_⟩
      by_contra none
      exact refused (takes_read named found exact before fun e failed =>
        none ⟨e, failed⟩)

end

section
variable (engine : Engine) (plan : Plan)

def rowsOf (key : List GroupKey) (rows : List EventRow) : List EventRow :=
  rows.filter fun row => keyOf engine plan row = key

def statesOf (rows : List EventRow) : List Accumulator := plan.measures.map fun m => stateOf engine m rows

def TakesAll (rows : List EventRow) : Prop :=
  ∀ key, ∀ measure ∈ plan.measures, Takes engine measure (rowsOf engine plan key rows)

/-- What every row list of this section keeps to: measures with an exact state, and sums
without a float. -/
structure Admits (rows : List EventRow) : Prop where
  plain : ∀ measure ∈ plan.measures, Plain measure
  exact : ∀ measure ∈ plan.measures, Exact measure rows

end

section
variable {engine : Engine} {plan : Plan} {rows : List EventRow} {row : EventRow}

theorem rowsOf_snoc (key : List GroupKey) : rowsOf engine plan key (rows ++ [row]) =
    if keyOf engine plan row = key then rowsOf engine plan key rows ++ [row] else rowsOf engine plan key rows := by
  by_cases same : keyOf engine plan row = key <;> simp [rowsOf, same]

theorem Exact.of_subset {measure : Measure} {part : List EventRow} (exact : Exact measure rows)
    (inside : ∀ row ∈ part, row ∈ rows) : Exact measure part :=
  fun kind row held => exact kind row (inside row held)

theorem Admits.of_subset {part : List EventRow} (admits : Admits plan rows)
    (inside : ∀ row ∈ part, row ∈ rows) : Admits plan part :=
  ⟨admits.plain, fun measure named => (admits.exact measure named).of_subset inside⟩

theorem statesOf_nil : statesOf engine plan [] = started plan := by
  simp [statesOf, started, stateOf_nil]

theorem addAll_statesOf {measures : List Measure} (plain : ∀ m ∈ measures, Plain m)
    (exact : ∀ m ∈ measures, Exact m (rows ++ [row])) (before : ∀ m ∈ measures, Takes engine m rows) :
    ((∀ m ∈ measures, Takes engine m (rows ++ [row])) →
      addAll engine row measures (measures.map fun m => stateOf engine m rows) =
        .ok (measures.map fun m => stateOf engine m (rows ++ [row]))) ∧
    ((¬ ∀ m ∈ measures, Takes engine m (rows ++ [row])) →
      ∃ e, addAll engine row measures (measures.map fun m => stateOf engine m rows) = .error e) := by
  induction measures with
  | nil => exact ⟨fun _ => rfl, fun refused => absurd (by simp) refused⟩
  | cons m measures ih =>
    obtain ⟨first, others⟩ := forall_mem_cons.mp before
    obtain ⟨taken, refused⟩ := add_stateOf (plain m mem_cons_self) (exact m mem_cons_self)
      first
    obtain ⟨taken', refused'⟩ := ih (fun n inside => plain n (mem_cons_of_mem _ inside))
      (fun n inside => exact n (mem_cons_of_mem _ inside)) others
    simp only [map_cons, addAll, forall_mem_cons]
    constructor
    · rintro ⟨here, there⟩
      rw [taken here, taken' there]
      rfl
    · intro some
      by_cases here : Takes engine m (rows ++ [row])
      · obtain ⟨e, failed⟩ := refused' fun there => some ⟨here, there⟩
        rw [taken here, failed]
        exact ⟨e, rfl⟩
      · obtain ⟨e, failed⟩ := refused here
        rw [failed]
        exact ⟨e, rfl⟩

def HoldsStates (engine : Engine) (plan : Plan) (rows : List EventRow) (groups : Groups) : Prop :=
  ∀ key, groups.get? key =
    if rowsOf engine plan key rows = [] then none
    else some (statesOf engine plan (rowsOf engine plan key rows))

theorem HoldsStates.getD {groups : Groups} (holds : HoldsStates engine plan rows groups)
    (key : List GroupKey) : (groups.get? key).getD (started plan) =
      statesOf engine plan (rowsOf engine plan key rows) := by
  rw [holds key]
  split
  · rename_i empty
    rw [empty, statesOf_nil]
    rfl
  · rfl

theorem foldRow_holds {groups : Groups} (admits : Admits plan (rows ++ [row]))
    (holds : HoldsStates engine plan rows groups) (before : TakesAll engine plan rows) :
    (TakesAll engine plan (rows ++ [row]) → ∃ after, foldRow engine plan groups row = .ok after ∧
      HoldsStates engine plan (rows ++ [row]) after) ∧
    (¬ TakesAll engine plan (rows ++ [row]) → ∃ e, foldRow engine plan groups row = .error e) := by
  set key := keyOf engine plan row
  have mine : rowsOf engine plan key (rows ++ [row]) = rowsOf engine plan key rows ++ [row] := by
    rw [rowsOf_snoc, if_pos rfl]
  have inside : ∀ r ∈ rowsOf engine plan key rows ++ [row], r ∈ rows ++ [row] := by
    rw [← mine]
    exact fun r held => (List.mem_filter.mp held).1
  obtain ⟨taken, refused⟩ := @addAll_statesOf engine (rowsOf engine plan key rows) row plan.measures
    admits.plain (fun m named => (admits.exact m named).of_subset inside) (before key)
  have entry : addAll engine row plan.measures ((groups.get? key).getD (started plan)) =
      addAll engine row plan.measures (plan.measures.map fun m =>
        stateOf engine m (rowsOf engine plan key rows)) := by
    rw [holds.getD key]
    rfl
  have step : foldRow engine plan groups row =
      (addAll engine row plan.measures ((groups.get? key).getD (started plan)) >>= fun entry =>
        .ok (groups.insert key entry)) := rfl
  rw [step, entry]
  constructor
  · intro takes
    rw [taken (mine ▸ takes key)]
    refine ⟨_, rfl, fun other => ?_⟩
    rw [OrderedMap.get?_insert]
    split
    · rename_i same
      rw [same, mine, if_neg (by simp)]
      rfl
    · rename_i different
      have same : rowsOf engine plan other (rows ++ [row]) = rowsOf engine plan other rows := by
        rw [rowsOf_snoc, if_neg fun same => different same.symm]
      rw [holds other, same]
  · intro some
    obtain ⟨e, failed⟩ := refused fun here => some fun other m named => by
      rw [rowsOf_snoc]
      split
      · rename_i same
        rw [← same]
        exact here m named
      · exact before other m named
    rw [failed]
    exact ⟨e, rfl⟩

theorem TakesAll.init (takes : TakesAll engine plan (rows ++ [row])) : TakesAll engine plan rows := by
  intro key measure named
  have all := takes key measure named
  rw [rowsOf_snoc] at all
  split at all
  · exact all.init
  · exact all

theorem foldRows_eq (admits : Admits plan rows) :
    (TakesAll engine plan rows → ∃ groups, foldRows engine plan ∅ rows = .ok groups ∧
      HoldsStates engine plan rows groups) ∧
    (¬ TakesAll engine plan rows → ∃ e, foldRows engine plan ∅ rows = .error e) := by
  induction rows using List.reverseRecOn with
  | nil =>
    refine ⟨fun _ => ⟨∅, rfl, fun key => rfl⟩, fun refused => absurd (fun key m _ => ?_) refused⟩
    exact ⟨by simp [rowsOf], fun _ => Nat.zero_le _⟩
  | append_singleton rows row ih =>
    have part : Admits plan rows := admits.of_subset fun r inside => mem_append_left _ inside
    have folded : foldRows engine plan ∅ (rows ++ [row]) =
        foldRows engine plan ∅ rows >>= fun groups => foldRow engine plan groups row := by
      simp [foldRows]
    rw [folded]
    by_cases before : TakesAll engine plan rows
    · obtain ⟨groups, ok, holds⟩ := (ih part).1 before
      rw [ok]
      exact foldRow_holds admits holds before
    · obtain ⟨e, failed⟩ := (ih part).2 before
      rw [failed]
      exact ⟨fun takes => absurd takes.init before, fun _ => ⟨e, rfl⟩⟩

end

section
variable (engine : Engine)

/-- A value of its type, with texts shorter than the address space. -/
def Storable : PropertyValue → Prop
  | .integer v => InI64 v
  | .unsigned v => v < 2 ^ 64
  | .float bits => TextFits (engine.floats.display bits)
  | .decimal text => TextFits text
  | .text text => TextFits text
  | .bytes bytes => bytes.length < 2 ^ 64
  | .null | .boolean _ => True

def joinExact : Option (Int × Nat) → Option (Int × Nat) → Option (Int × Nat)
  | some held, some arrived => some (Accumulator.mergeExact held arrived)
  | _, _ => none

def mergedExact (measure : Measure) (parts : List (List EventRow)) : Option (Int × Nat) :=
  parts.foldl (fun held part => joinExact held (sumExact (partsOf measure part))) (some (0, 0))

def mergedFloat (measure : Measure) (parts : List (List EventRow)) : UInt64 :=
  parts.foldl (fun total part => engine.floats.add total (floatTotal engine (reads measure part))) 0

def mergedKeys (measure : Measure) (parts : List (List EventRow)) : OrderedMap GroupKey Unit :=
  parts.foldl (fun seen part =>
    (keySet engine (reads measure part)).entries.foldl (fun seen e => seen.insert e.1 ()) seen) ∅

def mergedOf (measure : Measure) (parts : List (List EventRow)) : Accumulator :=
  match measure.kind with
  | .count => .count ((parts.map List.length).sum % 2 ^ 64)
  | .sum => .sum (mergedExact measure parts) (mergedFloat engine measure parts) false
      (parts.any fun part => !(reads measure part).isEmpty)
  | .min => .extreme false
      (extremeOf engine false (parts.filterMap fun part => extremeOf engine false (reads measure part)))
  | .max => .extreme true
      (extremeOf engine true (parts.filterMap fun part => extremeOf engine true (reads measure part)))
  | .countDistinct => .distinct (mergedKeys engine measure parts)
  | _ => .new measure

end

section
variable {engine : Engine} {measure : Measure} {rows : List EventRow}

theorem mergedOf_nil : mergedOf engine measure [] = .new measure := by
  cases kind : measure.kind <;> simp only [mergedOf, Accumulator.new, kind] <;> rfl

variable {value : PropertyValue}

theorem cborToProperty_propertyToCbor (storable : Storable engine value) :
    cborToProperty engine (propertyToCbor value) = some value := by
  cases value with
  | integer v =>
    simp [cborToProperty, propertyToCbor, field_build, get?_put, typeName, Value.asText,
      asInteger_integer storable]
  | _ =>
    simp [cborToProperty, propertyToCbor, field_build, get?_put, get?_empty, typeName, Value.asText,
      asBool, asFloatBits, Value.asUnsigned, Value.asBytes]

theorem fits_propertyToCbor (storable : Storable engine value) (n : Nat) : (propertyToCbor value).Fits (n + 1) := by
  have key : ∀ name ∈ ["k", "v"], TextFits name := by decide
  have kind : ∀ value, (Value.text (typeName value)).Fits n := by
    intro value
    refine fits_text ?_
    cases value <;> simp only [typeName] <;> decide
  have one := (Holds.empty n).put (key "k" (by decide)) (kind value)
  cases value with
  | null => exact one.build (by decide)
  | integer v => exact (one.put (key "v" (by decide)) (fits_integer storable)).build (by decide)
  | decimal text => exact (one.put (key "v" (by decide)) (fits_text storable)).build (by decide)
  | text text => exact (one.put (key "v" (by decide)) (fits_text storable)).build (by decide)
  | unsigned v =>
    have fits : (Value.unsigned v).Fits n := by
      rw [Value.Fits]
      exact storable
    exact (one.put (key "v" (by decide)) fits).build (by decide)
  | bytes v =>
    have fits : (Value.bytes v).Fits n := by
      rw [Value.Fits]
      exact storable
    exact (one.put (key "v" (by decide)) fits).build (by decide)
  | boolean v =>
    have fits : (Value.bool v).Fits n := by simp [Value.Fits]
    exact (one.put (key "v" (by decide)) fits).build (by decide)
  | float bits =>
    have fits : (Value.float bits).Fits n := by simp [Value.Fits]
    exact (one.put (key "v" (by decide)) fits).build (by decide)

theorem GroupKey.of_value (display : UInt64 → String) (key : GroupKey) :
    GroupKey.of display (some key.value) = key := by
  cases key <;> rfl

theorem storable_key (storable : Storable engine value) :
    Storable engine (GroupKey.of engine.floats.display (some value)).value := by
  cases value with
  | unsigned v => exact inI64_wrapI64 v
  | _ => exact storable

theorem sumExact_fits {parts : List (Int × Nat)} {total : Int × Nat}
    (scales : ∀ part ∈ parts, part.2 < 2 ^ 32) (found : sumExact parts = some total) :
    InI128 total.1 ∧ total.2 < 2 ^ 32 := by
  induction parts using List.reverseRecOn generalizing total with
  | nil =>
    cases found
    decide
  | append_singleton parts part ih =>
    rw [sumExact_snoc] at found
    obtain ⟨held, before, added⟩ := Option.bind_eq_some_iff.mp found
    obtain ⟨-, small⟩ := ih (fun p inside => scales p (mem_append_left _ inside)) before
    have scale := scales part (by simp)
    simp only [addExact, Option.bind_eq_bind, Option.bind_eq_some_iff] at added
    obtain ⟨a, -, b, -, sum, checked, same⟩ := added
    cases same
    unfold checkI128 at checked
    split at checked
    · cases checked
      rename_i fits
      exact ⟨fits, max_lt small scale⟩
    · cases checked

theorem exactParts_scale {part : Int × Nat} (found : exactParts value = some part) : part.2 < 2 ^ 32 := by
  cases value with
  | integer v =>
    cases found
    exact Nat.two_pow_pos 32
  | unsigned v =>
    cases found
    exact Nat.two_pow_pos 32
  | decimal text =>
    simp only [exactParts, decimalParts] at found
    split at found
    · cases found
    · simp only [Option.bind_eq_bind, Option.bind_eq_some_iff] at found
      obtain ⟨digits, -, mantissa, -, same⟩ := found
      cases same
      exact Nat.mod_lt _ (by decide)
  | _ => cases found

theorem length_utf8Encode_le (chars : List Char) : chars.utf8Encode.size ≤ 4 * chars.length := by
  induction chars with
  | nil => simp
  | cons c chars ih =>
    have one : [c].utf8Encode.size ≤ 4 := by
      rw [utf8Encode_singleton, size_toByteArray, String.length_utf8EncodeChar]
      exact c.utf8Size_le_four
    rw [utf8Encode_cons, ByteArray.size_append, length_cons]
    omega

theorem length_textBytes_le (text : String) : (textBytes text).length ≤ 4 * text.toList.length := by
  have bound := length_utf8Encode_le text.toList
  rw [String.utf8Encode_toList] at bound
  simpa [textBytes] using bound

theorem fits_toString {n : Int} (fits : InI128 n) : TextFits (toString n) := by
  have digits : ∀ m : Nat, m < 10 ^ 40 → (Nat.toDigits 10 m).length ≤ 40 := fun m small =>
    Nat.toDigits_length 10 m 40 (by decide) small
  have few : (toString n).toList.length ≤ 41 := by
    unfold InI128 at fits
    cases n with
    | ofNat m =>
      have chars : (toString (Int.ofNat m)).toList = Nat.toDigits 10 m := by
        show (toString m).toList = _
        simp
      rw [chars]
      have := digits m (by have := fits.2; simp at this; omega)
      omega
    | negSucc m =>
      have chars : (toString (Int.negSucc m)).toList = '-' :: Nat.toDigits 10 (m + 1) := by
        show ("-" ++ toString (m + 1)).toList = _
        simp
      rw [chars, length_cons]
      have := digits (m + 1) (by have := fits.1; omega)
      omega
  have bound := length_textBytes_le (toString n)
  unfold TextFits
  omega

theorem parseI128_toString {n : Int} (fits : InI128 n) : parseI128 (toString n) = some n := by
  rw [parseI128, parseSigned_toString]
  simp [fits]

/-- The values that the rows of one list hold are of their types. -/
def StorableRows (engine : Engine) (rows : List EventRow) : Prop :=
  ∀ row ∈ rows, ∀ field value, (Expr.read field row).value = some value → Storable engine value

theorem storable_reads (storable : StorableRows engine rows) : ∀ value ∈ reads measure rows, Storable engine value := by
  intro value inside
  obtain ⟨row, held, found⟩ := mem_filterMap.mp inside
  obtain ⟨field, -, read⟩ := Option.bind_eq_some_iff.mp found
  exact storable row held field value read

theorem extremeOf_mem {largest : Bool} {values : List PropertyValue}
    (found : extremeOf engine largest values = some value) : value ∈ values := by
  induction values using List.reverseRecOn generalizing value with
  | nil => cases found
  | append_singleton values last ih =>
    have step : extremeOf engine largest (values ++ [last]) =
        towards engine largest (extremeOf engine largest values) last := by
      simp [extremeOf]
    rw [step, towards] at found
    split at found
    · cases found
      simp
    · exact mem_append_left _ (ih found)

theorem mem_keySet {values : List PropertyValue} {key : GroupKey} : (key, ()) ∈ (keySet engine values).entries ↔
      ∃ value ∈ values, GroupKey.of engine.floats.display (some value) = key := by
  induction values using List.reverseRecOn with
  | nil => simp [keySet]
  | append_singleton values last ih =>
    rw [keySet_snoc, OrderedMap.mem_insert, ih]
    simp only [Prod.mk.injEq, and_true, mem_append, mem_singleton, or_and_right,
      exists_or, exists_eq_left]
    constructor
    · rintro (rfl | ⟨old, -⟩)
      · exact .inr rfl
      · exact .inl old
    · rintro (old | rfl)
      · by_cases same : key = GroupKey.of engine.floats.display (some last)
        · exact .inl same
        · exact .inr ⟨old, same⟩
      · exact .inl rfl

theorem length_keySet_le (values : List PropertyValue) : (keySet engine values).entries.length ≤ values.length := by
  induction values using List.reverseRecOn with
  | nil => simp [keySet]
  | append_singleton values last ih =>
    rw [keySet_snoc, OrderedMap.length_insert, length_append, length_singleton]
    split <;> omega

theorem filterMap_single {α β : Type} (f : α → Option β) (a : α) : [a].filterMap f = (f a).toList := by
  cases found : f a <;> simp [found]

theorem names_fit : ∀ name ∈ ["t", "n", "f", "sf", "sa", "u", "s", "l", "v", "k", "count", "sum",
    "extreme", "distinct"], TextFits name := by decide

theorem partialState_extreme (largest : Bool) {held : Option PropertyValue}
    (storable : ∀ value, held = some value → Storable engine value) (n : Nat) :
    ∃ state, (Accumulator.extreme largest held).partialState = some state ∧ state.Fits (n + 3) ∧
      ∀ values, (Accumulator.extreme largest (extremeOf engine largest values)).mergePartial engine
        state = .ok (.extreme largest (extremeOf engine largest (values ++ held.toList))) := by
  have base := ((Holds.empty (n + 2)).put (names_fit "t" (by decide)) (fits_text
    (names_fit "extreme" (by decide)))).put (names_fit "l" (by decide))
      (show (Value.bool largest).Fits (n + 2) by simp [Value.Fits])
  cases held with
  | none =>
    refine ⟨_, rfl, base.build (by decide), fun values => ?_⟩
    simp [Accumulator.mergePartial, field_build, get?_put, get?_empty, Value.asText]
  | some value =>
    have fits := @fits_propertyToCbor engine value (storable value rfl) (n + 1)
    refine ⟨_, rfl, (base.put (names_fit "v" (by decide)) fits).build (by decide), fun values => ?_⟩
    simp [Accumulator.mergePartial, field_build, get?_put, Value.asText,
      cborToProperty_propertyToCbor (storable value rfl), extremeOf]

theorem partialState_sum {exact : Option (Int × Nat)} {inexact : UInt64} {sawAny : Bool}
    (fits : ∀ total, exact = some total → InI128 total.1 ∧ total.2 < 2 ^ 32) (n : Nat) :
    ∃ state, (Accumulator.sum exact inexact false sawAny).partialState = some state ∧
      state.Fits (n + 3) ∧ ∀ held total before, (Accumulator.sum held total false before).mergePartial engine state =
          .ok (.sum (joinExact held exact) (engine.floats.add total inexact) false (before || sawAny)) := by
  have base := ((((Holds.empty (n + 2)).put (names_fit "t" (by decide)) (fits_text
    (names_fit "sum" (by decide)))).put (names_fit "f" (by decide))
      (show (Value.float inexact).Fits (n + 2) by simp [Value.Fits])).put (names_fit "sf" (by decide))
      (show (Value.bool false).Fits (n + 2) by simp [Value.Fits])).put (names_fit "sa" (by decide))
      (show (Value.bool sawAny).Fits (n + 2) by simp [Value.Fits])
  cases exact with
  | none =>
    refine ⟨_, rfl, base.build (by decide), fun held total before => ?_⟩
    cases held <;>
      simp [Accumulator.mergePartial, Accumulator.arrivedExact, field_build, get?_put, get?_empty,
        Value.asText, asBool, asFloatBits, joinExact]
  | some arrived =>
    obtain ⟨units, scale⟩ := arrived
    obtain ⟨inside, small⟩ := fits _ rfl
    have narrow : scale < 2 ^ 64 := small.trans (by decide)
    refine ⟨_, rfl, ((base.put (names_fit "u" (by decide)) (fits_text (fits_toString inside))).put
      (names_fit "s" (by decide)) (by rw [Value.Fits]; exact narrow)).build (by decide),
      fun held total before => ?_⟩
    have scaled : scale % 4294967296 = scale := Nat.mod_eq_of_lt small
    have parsed : parseI128 units.repr = some units := parseI128_toString inside
    cases held <;>
      simp [Accumulator.mergePartial, Accumulator.arrivedExact, field_build, get?_put,
        Value.asText, Value.asUnsigned, asBool, asFloatBits, parsed, scaled, joinExact]

theorem partialState_distinct {seen : OrderedMap GroupKey Unit}
    (storable : ∀ e ∈ seen.entries, Storable engine e.1.value) (few : seen.entries.length < 2 ^ 64) (n : Nat) :
    ∃ state, (Accumulator.distinct seen).partialState = some state ∧ state.Fits (n + 3) ∧
      ∀ held, (Accumulator.distinct held).mergePartial engine state =
        .ok (.distinct (seen.entries.foldl (fun seen e => seen.insert e.1 ()) held)) := by
  refine ⟨_, rfl, ?_, fun held => ?_⟩
  · refine (((Holds.empty (n + 2)).put (names_fit "t" (by decide)) (fits_text
      (names_fit "distinct" (by decide)))).put (names_fit "v" (by decide)) ?_).build (by decide)
    refine ⟨by simpa using few, fun item inside => ?_⟩
    obtain ⟨e, there, rfl⟩ := mem_map.mp inside
    exact fits_propertyToCbor (storable e there) n
  · have back : (seen.entries.map fun e => propertyToCbor e.1.value).filterMap (cborToProperty engine) =
        seen.entries.map fun e => e.1.value := by
      rw [filterMap_map, ← filterMap_eq_map]
      refine filterMap_congr fun e inside => ?_
      exact cborToProperty_propertyToCbor (storable e inside)
    simp [Accumulator.mergePartial, field_build, get?_put, Value.asText, Value.asArray, back,
      foldl_map, GroupKey.of_value]

theorem partialState_stateOf (plain : Plain measure) (storable : StorableRows engine rows)
    (few : rows.length < 2 ^ 64) (n : Nat) :
    ∃ state, (stateOf engine measure rows).partialState = some state ∧ state.Fits (n + 3) ∧
      ∀ parts, (mergedOf engine measure parts).mergePartial engine state =
        .ok (mergedOf engine measure (parts ++ [rows])) := by
  have kinds : measure.kind = .count ∨ measure.kind = .sum ∨ measure.kind = .min ∨
      measure.kind = .max ∨ measure.kind = .countDistinct := by simpa [Plain] using plain
  have held : ∀ value ∈ reads measure rows, Storable engine value := storable_reads storable
  rcases kinds with kind | kind | kind | kind | kind
  · refine ⟨_, by rw [stateOf, kind]; rfl, ?_, fun parts => ?_⟩
    · refine (((Holds.empty (n + 2)).put (names_fit "t" (by decide)) (fits_text
        (names_fit "count" (by decide)))).put (names_fit "n" (by decide)) ?_).build (by decide)
      rw [Value.Fits]
      exact Nat.mod_lt _ (Nat.two_pow_pos 64)
    · simp [mergedOf, kind, Accumulator.mergePartial, field_build, get?_put, Value.asText,
        Value.asUnsigned]
  · have fits : ∀ total, sumExact (partsOf measure rows) = some total →
        InI128 total.1 ∧ total.2 < 2 ^ 32 := by
      refine fun total => sumExact_fits fun part inside => ?_
      obtain ⟨value, -, found⟩ := mem_filterMap.mp inside
      exact exactParts_scale found
    obtain ⟨state, travels, deep, merges⟩ := @partialState_sum engine _
      (floatTotal engine (reads measure rows)) (!(reads measure rows).isEmpty) fits n
    refine ⟨state, by simpa [stateOf, kind] using travels, deep, fun parts => ?_⟩
    simp only [mergedOf, kind, merges, mergedExact, mergedFloat, foldl_append, foldl_cons,
      foldl_nil, any_append, any_cons, any_nil, Bool.or_false]
  · obtain ⟨state, travels, deep, merges⟩ := partialState_extreme false
      (fun value found => held value (extremeOf_mem found)) n
    refine ⟨state, by simpa [stateOf, kind] using travels, deep, fun parts => ?_⟩
    simp only [mergedOf, kind, merges, filterMap_append, filterMap_single]
  · obtain ⟨state, travels, deep, merges⟩ := partialState_extreme true
      (fun value found => held value (extremeOf_mem found)) n
    refine ⟨state, by simpa [stateOf, kind] using travels, deep, fun parts => ?_⟩
    simp only [mergedOf, kind, merges, filterMap_append, filterMap_single]
  · have keys : ∀ e ∈ (keySet engine (reads measure rows)).entries, Storable engine e.1.value := by
      rintro ⟨key, ⟨⟩⟩ inside
      obtain ⟨value, there, rfl⟩ := mem_keySet.mp inside
      exact storable_key (held value there)
    have small : (keySet engine (reads measure rows)).entries.length < 2 ^ 64 :=
      ((length_keySet_le _).trans (length_filterMap_le _ _)).trans_lt few
    obtain ⟨state, travels, deep, merges⟩ := partialState_distinct keys small n
    refine ⟨state, by simpa [stateOf, kind] using travels, deep, fun parts => ?_⟩
    simp only [mergedOf, kind, merges, mergedKeys, foldl_append, foldl_cons, foldl_nil]

end

section
variable (engine : Engine) (plan : Plan)

def groupParts (key : List GroupKey) (tablets : List (List EventRow)) : List (List EventRow) :=
  (tablets.map (rowsOf engine plan key)).filter (· ≠ [])

def mergedStates (parts : List (List EventRow)) : List Accumulator :=
  plan.measures.map fun m => mergedOf engine m parts

def HoldsMerged (tablets : List (List EventRow)) (groups : Groups) : Prop :=
  ∀ key, groups.get? key =
    if groupParts engine plan key tablets = [] then none
    else some (mergedStates engine plan (groupParts engine plan key tablets))

/-- The sizes of a plan and of one tablet's rows, and the types of what it reads. -/
structure Sized (rows : List EventRow) : Prop where
  values : StorableRows engine rows
  rows : rows.length < 2 ^ 64
  dimensions : plan.dimensions.length < 2 ^ 64 - 1
  measures : plan.measures.length < 2 ^ 64

end

section
variable {engine : Engine} {plan : Plan} {rows : List EventRow}

theorem mergedStates_nil : mergedStates engine plan [] = started plan := by
  simp [mergedStates, started, mergedOf_nil]

variable {groups : Groups}

theorem HoldsMerged.getD {tablets : List (List EventRow)}
    (holds : HoldsMerged engine plan tablets groups) (key : List GroupKey) : (groups.get? key).getD (started plan) =
      mergedStates engine plan (groupParts engine plan key tablets) := by
  rw [holds key]
  split
  · rename_i empty
    rw [empty, mergedStates_nil]
    rfl
  · rfl

theorem mapM_partialState {measures : List Measure} (plain : ∀ m ∈ measures, Plain m)
    (storable : StorableRows engine rows) (few : rows.length < 2 ^ 64) (n : Nat) :
    ∃ states, (measures.map fun m => stateOf engine m rows).mapM Accumulator.partialState =
        some states ∧ states.length = measures.length ∧ (∀ state ∈ states, state.Fits (n + 3)) ∧
      ∀ parts, mergeAll engine (measures.map fun m => mergedOf engine m parts) states =
        .ok (measures.map fun m => mergedOf engine m (parts ++ [rows])) := by
  induction measures with
  | nil => exact ⟨[], rfl, rfl, by simp, fun parts => rfl⟩
  | cons m measures ih =>
    obtain ⟨first, others⟩ := forall_mem_cons.mp plain
    obtain ⟨states, travel, count, deep, merge⟩ := ih others
    obtain ⟨state, travels, fits, merges⟩ := partialState_stateOf first storable few n
    refine ⟨state :: states, ?_, by simp [count], forall_mem_cons.mpr ⟨fits, deep⟩, fun parts => ?_⟩
    · rw [map_cons, mapM_cons, travels, travel]
      rfl
    · rw [map_cons, mergeAll, merges, merge]
      rfl

theorem encodeGroup_statesOf {key : List GroupKey} (plain : ∀ m ∈ plan.measures, Plain m)
    (storable : StorableRows engine rows) (few : rows.length < 2 ^ 64)
    (measures : plan.measures.length < 2 ^ 64) (parts : key.length < 2 ^ 64)
    (held : ∀ part ∈ key, Storable engine part.value) (n : Nat) :
    ∃ value, encodeGroup (key, statesOf engine plan rows) = some value ∧ value.Fits (n + 5) ∧
      ∀ (into : Groups) (before : List (List EventRow)),
        (into.get? key).getD (started plan) = mergedStates engine plan before → mergeGroup engine plan into value =
          .ok (into.insert key (mergedStates engine plan (before ++ [rows]))) := by
  obtain ⟨states, travel, count, deep, merge⟩ := mapM_partialState plain storable few n
  refine ⟨_, by rw [encodeGroup, statesOf, travel]; rfl, ?_, fun into before same => ?_⟩
  · refine (((Holds.empty (n + 4)).put (names_fit "k" (by decide)) ?_).put (names_fit "s" (by decide))
      ?_).build (by decide)
    · refine ⟨by simpa using parts, fun item inside => ?_⟩
      obtain ⟨part, there, rfl⟩ := mem_map.mp inside
      exact fits_propertyToCbor (held part there) (n + 2)
    · exact ⟨by rw [count]; exact measures, deep⟩
  · have back : (key.map fun part => propertyToCbor part.value).map (fun part =>
        GroupKey.of engine.floats.display (cborToProperty engine part)) = key := by
      rw [map_map]
      refine (map_congr_left fun part inside => ?_).trans (map_id _)
      show GroupKey.of _ (cborToProperty engine (propertyToCbor part.value)) = part
      rw [cborToProperty_propertyToCbor (held part inside), GroupKey.of_value]
    simp [mergeGroup, field_build, get?_put, Value.asArray, back, same, count, mergedStates, merge]
    rfl

theorem mapM_encodeGroup {entries : List (List GroupKey × List Accumulator)} {tablet : List EventRow}
    (plain : ∀ m ∈ plan.measures, Plain m) (measures : plan.measures.length < 2 ^ 64)
    (storable : StorableRows engine tablet) (few : tablet.length < 2 ^ 64) (alone : (entries.map Prod.fst).Nodup)
    (states : ∀ e ∈ entries, e.2 = statesOf engine plan (rowsOf engine plan e.1 tablet))
    (keys : ∀ e ∈ entries, e.1.length < 2 ^ 64 ∧ ∀ part ∈ e.1, Storable engine part.value) (n : Nat) :
    ∃ out, entries.mapM encodeGroup = some out ∧ out.length = entries.length ∧ (∀ value ∈ out, value.Fits (n + 5)) ∧
      ∀ (into : Groups) (before : List GroupKey → List (List EventRow)),
        (∀ e ∈ entries, (into.get? e.1).getD (started plan) = mergedStates engine plan (before e.1)) →
        ∃ after, out.foldlM (mergeGroup engine plan) into = .ok after ∧
          ∀ key, after.get? key = if key ∈ entries.map Prod.fst then
            some (mergedStates engine plan (before key ++ [rowsOf engine plan key tablet])) else into.get? key := by
  induction entries with
  | nil => exact ⟨[], rfl, rfl, by simp, fun into before _ => ⟨into, rfl, by simp⟩⟩
  | cons e entries ih =>
    obtain ⟨fresh, later⟩ := nodup_cons.mp alone
    obtain ⟨state, others⟩ := forall_mem_cons.mp states
    obtain ⟨⟨short, held⟩, rest⟩ := forall_mem_cons.mp keys
    obtain ⟨out, travel, count, deep, merge⟩ := ih later others rest
    have part : StorableRows engine (rowsOf engine plan e.1 tablet) := fun row inside =>
      storable row (List.mem_filter.mp inside).1
    have less : (rowsOf engine plan e.1 tablet).length < 2 ^ 64 :=
      (length_filter_le _ _).trans_lt few
    obtain ⟨value, travels, fits, merges⟩ := encodeGroup_statesOf plain part less measures short held n
    refine ⟨value :: out, ?_, by simp [count], forall_mem_cons.mpr ⟨fits, deep⟩, ?_⟩
    · rw [mapM_cons, show e = (e.1, statesOf engine plan (rowsOf engine plan e.1 tablet)) from
        Prod.ext rfl state, travels, travel]
      rfl
    · intro into before same
      obtain ⟨first, remaining⟩ := forall_mem_cons.mp same
      have step := merges into (before e.1) first
      obtain ⟨after, folded, found⟩ := merge (into.insert e.1 (mergedStates engine plan
        (before e.1 ++ [rowsOf engine plan e.1 tablet]))) before fun other inside => by
          have different : other.1 ≠ e.1 := fun equal =>
            fresh (equal ▸ mem_map_of_mem inside)
          rw [OrderedMap.get?_insert, if_neg different]
          exact remaining other inside
      refine ⟨after, ?_, fun key => ?_⟩
      · rw [foldlM_cons, step]
        exact folded
      · rw [found key, OrderedMap.get?_insert]
        by_cases here : key = e.1
        · subst here
          rw [if_neg fresh, if_pos rfl, if_pos (by simp)]
        · simp only [map_cons, mem_cons, here, false_or, if_false]

theorem storable_keyOf {row : EventRow} (storable : StorableRows engine rows) (inside : row ∈ rows)
    (few : plan.dimensions.length < 2 ^ 64 - 1) : (keyOf engine plan row).length < 2 ^ 64 ∧
      ∀ part ∈ keyOf engine plan row, Storable engine part.value := by
  constructor
  · have bucket : plan.bucketing.toList.length ≤ 1 := by cases plan.bucketing <;> simp
    simp only [keyOf, length_append, length_map]
    omega
  · intro part held
    rcases mem_append.mp held with bucket | dimension
    · obtain ⟨bucketing, -, rfl⟩ := mem_map.mp bucket
      cases bucketing with
      | fixed span => exact inI64_wrapI64 _
      | calendar unit zone => exact engine.startOf_fits unit zone _
    · obtain ⟨field, -, rfl⟩ := mem_map.mp dimension
      cases found : (Expr.read field row).value with
      | none => exact trivial
      | some value => exact storable_key (storable row inside field value found)

theorem HoldsStates.mem (holds : HoldsStates engine plan rows groups)
    {e : List GroupKey × List Accumulator} (inside : e ∈ groups.entries) :
    rowsOf engine plan e.1 rows ≠ [] ∧ e.2 = statesOf engine plan (rowsOf engine plan e.1 rows) ∧
      ∃ row ∈ rows, keyOf engine plan row = e.1 := by
  have found := OrderedMap.get?_eq_some.mpr inside
  rw [holds e.1] at found
  split at found
  · cases found
  · rename_i some
    obtain ⟨row, there⟩ := exists_mem_of_ne_nil _ some
    obtain ⟨held, same⟩ := List.mem_filter.mp there
    exact ⟨some, (Option.some.inj found).symm, row, held, of_decide_eq_true same⟩

theorem HoldsStates.length_le (holds : HoldsStates engine plan rows groups) : groups.entries.length ≤ rows.length := by
  have inside : groups.entries.map Prod.fst ⊆ rows.map (keyOf engine plan) := by
    intro key there
    obtain ⟨e, held, rfl⟩ := mem_map.mp there
    obtain ⟨-, -, row, mem, same⟩ := holds.mem held
    exact same ▸ mem_map_of_mem mem
  simpa using (subperm_of_subset groups.nodup_keys inside).length_le

theorem HoldsStates.mem_keys (holds : HoldsStates engine plan rows groups)
    (key : List GroupKey) : key ∈ groups.entries.map Prod.fst ↔ rowsOf engine plan key rows ≠ [] := by
  constructor
  · intro inside
    obtain ⟨e, held, rfl⟩ := mem_map.mp inside
    exact (holds.mem held).1
  · intro some
    have found := holds key
    rw [if_neg some] at found
    exact mem_map.mpr ⟨_, OrderedMap.get?_eq_some.mp found, rfl⟩

theorem groupParts_snoc (key : List GroupKey) (tablets : List (List EventRow)) :
    groupParts engine plan key (tablets ++ [rows]) =
      if rowsOf engine plan key rows = [] then groupParts engine plan key tablets
      else groupParts engine plan key tablets ++ [rowsOf engine plan key rows] := by
  by_cases empty : rowsOf engine plan key rows = [] <;> simp [groupParts, empty]

theorem partialOf_ok (admits : Admits plan rows) (sized : Sized engine plan rows) (takes : TakesAll engine plan rows) :
    ∃ bytes, partialOf engine plan rows = .ok (some bytes) ∧ ∀ tablets into, HoldsMerged engine plan tablets into →
        ∃ after, mergePartialGroups engine plan into bytes = .ok after ∧
          HoldsMerged engine plan (tablets ++ [rows]) after := by
  obtain ⟨groups, folded, holds⟩ := (foldRows_eq admits).1 takes
  obtain ⟨out, travel, count, deep, merge⟩ := mapM_encodeGroup admits.plain sized.measures sized.values
    sized.rows groups.nodup_keys (fun e inside => (holds.mem inside).2.1)
    (fun e inside => by
      obtain ⟨-, -, row, there, same⟩ := holds.mem inside
      exact same ▸ storable_keyOf sized.values there sized.dimensions) 26
  refine ⟨encode (.array out), ?_, fun tablets into merged => ?_⟩
  · rw [partialOf, folded]
    show Except.ok (encodePartialGroups groups) = _
    rw [encodePartialGroups, travel]
    rfl
  · obtain ⟨after, ran, found⟩ := merge into (fun key => groupParts engine plan key tablets)
      fun e _ => merged.getD e.1
    have fits : (Value.array out).Fits maxDepth :=
      ⟨by rw [count]; exact holds.length_le.trans_lt sized.rows, deep⟩
    refine ⟨after, ?_, fun key => ?_⟩
    · rw [mergePartialGroups, decode_encode fits]
      exact ran
    · simp only [found key, holds.mem_keys, groupParts_snoc]
      by_cases empty : rowsOf engine plan key rows = []
      · simp only [empty, ne_eq, not_true_eq_false, if_false, if_true]
        exact merged key
      · simp [empty]

theorem partialOf_error (admits : Admits plan rows) (refused : ¬ TakesAll engine plan rows) :
    ∃ e, partialOf engine plan rows = .error e := by
  obtain ⟨e, failed⟩ := (foldRows_eq admits).2 refused
  refine ⟨e, ?_⟩
  rw [partialOf, failed]
  rfl

end

section
variable {engine : Engine} {plan : Plan} {tablets : List (List EventRow)}

theorem mapM_partialOf (admits : ∀ tablet ∈ tablets, Admits plan tablet)
    (sized : ∀ tablet ∈ tablets, Sized engine plan tablet) (takes : ∀ tablet ∈ tablets, TakesAll engine plan tablet) :
    ∃ states : List Bytes, tablets.mapM (partialOf engine plan) = .ok (states.map some) ∧
      ∀ before into, HoldsMerged engine plan before into →
        ∃ after, states.foldlM (mergePartialGroups engine plan) into = .ok after ∧
          HoldsMerged engine plan (before ++ tablets) after := by
  induction tablets with
  | nil => exact ⟨[], rfl, fun before into holds => ⟨into, rfl, by simpa using holds⟩⟩
  | cons tablet tablets ih =>
    obtain ⟨admitted, admits⟩ := forall_mem_cons.mp admits
    obtain ⟨measured, sized⟩ := forall_mem_cons.mp sized
    obtain ⟨taken, takes⟩ := forall_mem_cons.mp takes
    obtain ⟨bytes, answers, merges⟩ := partialOf_ok admitted measured taken
    obtain ⟨states, others, merge⟩ := ih admits sized takes
    refine ⟨bytes :: states, ?_, fun before into holds => ?_⟩
    · rw [mapM_cons, answers, others]
      rfl
    · obtain ⟨middle, first, held⟩ := merges before into holds
      obtain ⟨after, rest, done⟩ := merge (before ++ [tablet]) middle held
      refine ⟨after, ?_, by simpa using done⟩
      rw [foldlM_cons, first]
      exact rest

theorem mapM_some {α : Type} (xs : List α) : (xs.map some).mapM id = some xs := by
  induction xs with
  | nil => rfl
  | cons x xs ih =>
    rw [map_cons, mapM_cons, ih]
    rfl

theorem pushedDown_ok (admits : ∀ tablet ∈ tablets, Admits plan tablet)
    (sized : ∀ tablet ∈ tablets, Sized engine plan tablet) (takes : ∀ tablet ∈ tablets, TakesAll engine plan tablet) :
    ∃ groups, pushedDown engine plan tablets = .ok (some groups) ∧ HoldsMerged engine plan tablets groups := by
  obtain ⟨states, answers, merge⟩ := mapM_partialOf admits sized takes
  obtain ⟨groups, merged, holds⟩ := merge [] ∅ fun key => rfl
  refine ⟨groups, ?_, by simpa using holds⟩
  simp only [pushedDown, answers, bind, Except.bind, mapM_some, merged]

theorem pushedDown_error (admits : ∀ tablet ∈ tablets, Admits plan tablet)
    (sized : ∀ tablet ∈ tablets, Sized engine plan tablet)
    (refused : ∃ tablet ∈ tablets, ¬ TakesAll engine plan tablet) : ∃ e, pushedDown engine plan tablets = .error e := by
  have failed : ∃ e, tablets.mapM (partialOf engine plan) = .error e := by
    induction tablets with
    | nil => simp at refused
    | cons tablet tablets ih =>
      rw [mapM_cons]
      obtain ⟨admitted, admits⟩ := forall_mem_cons.mp admits
      obtain ⟨measured, sized⟩ := forall_mem_cons.mp sized
      by_cases taken : TakesAll engine plan tablet
      · obtain ⟨bytes, answers, -⟩ := partialOf_ok admitted measured taken
        obtain ⟨other, inside, stops⟩ := refused
        rcases mem_cons.mp inside with rfl | inside
        · exact absurd taken stops
        · obtain ⟨e, later⟩ := ih admits sized ⟨other, inside, stops⟩
          rw [answers, later]
          exact ⟨e, rfl⟩
      · obtain ⟨e, answers⟩ := partialOf_error admitted taken
        rw [answers]
        exact ⟨e, rfl⟩
  obtain ⟨e, failed⟩ := failed
  refine ⟨e, ?_⟩
  rw [pushedDown, failed]
  rfl

end

end TallyOwl.Query
