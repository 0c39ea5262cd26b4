import Mathlib.Data.Finset.Card
import TallyOwl.Head.Analysis

/-! What a domain operator makes of the rows of each key does not depend on the order in which the rows come. -/
namespace TallyOwl.Analysis
open Lib OrderedMap List
open Query (QueryError)

variable {guards : Guards} {budget : String} {keyOf : EventRow → Option String}

def Guards.InTime (guards : Guards) : Prop := ∀ index, guards.lateAtRow index = false ∧ guards.lateAtKey index = false

theorem checkTime_of_quiet {late : Nat → Bool} {index : Nat} (quiet : late index = false) :
    guards.checkTime late index = .ok () := by
  simp [Guards.checkTime, quiet]

def correlated (keyOf : EventRow → Option String) (rows : List EventRow) (held : Correlated) : Correlated :=
  rows.foldl (fun held row => held.take row (keyOf row)) held

theorem correlated_cons (row : EventRow) (rest : List EventRow) (held : Correlated) :
    correlated keyOf (row :: rest) held = correlated keyOf rest (held.take row (keyOf row)) := rfl

theorem correlate_ok {rows : List EventRow} {index : Nat} {held out : Correlated}
    (done : correlate guards budget keyOf index held rows = .ok out) : out = correlated keyOf rows held := by
  induction rows generalizing index held with
  | nil => exact (Except.ok.inj done).symm
  | cons row rest ih =>
    unfold correlate at done
    cases timely : guards.checkTime guards.lateAtRow index with
    | error e =>
      rw [timely] at done
      cases done
    | ok =>
      rw [timely] at done
      dsimp only [bind, Except.bind] at done
      rw [correlated_cons]
      cases whose : keyOf row with
      | none =>
        rw [whose] at done
        exact ih done
      | some key =>
        rw [whose] at done
        simp only at done
        split_ifs at done
        exact ih done

theorem length_correlated_le (rows : List EventRow) (held : Correlated) :
    held.byKey.entries.length ≤ (correlated keyOf rows held).byKey.entries.length := by
  induction rows generalizing held with
  | nil => exact le_refl _
  | cons row rest ih =>
    rw [correlated_cons]
    cases keyOf row with
    | none => exact ih (held.take row none)
    | some key =>
      have grown : (held.take row (some key)).byKey.entries.length = _ := length_push held.byKey key row
      refine le_trans ?_ (ih (held.take row (some key)))
      rw [grown]
      split_ifs <;> omega

theorem correlate_inTime (inTime : guards.InTime) (rows : List EventRow) (index : Nat) {held : Correlated}
    (few : held.byKey.entries.length ≤ guards.maxCorrelationKeys) : correlate guards budget keyOf index held rows =
      if (correlated keyOf rows held).byKey.entries.length ≤ guards.maxCorrelationKeys then
        .ok (correlated keyOf rows held)
      else .error (overBudget budget s!"more than {guards.maxCorrelationKeys}" guards.maxCorrelationKeys) := by
  induction rows generalizing index held with
  | nil => exact (if_pos few).symm
  | cons row rest ih =>
    unfold correlate
    rw [checkTime_of_quiet (inTime index).1]
    dsimp only [bind, Except.bind]
    rw [correlated_cons]
    cases keyOf row with
    | none => exact ih (index + 1) few
    | some key =>
      have grown := length_push held.byKey key row
      by_cases full : held.byKey.get? key = none ∧ guards.maxCorrelationKeys ≤ held.byKey.entries.length
      · have more : _ ≤ (correlated keyOf rest (held.take row (some key))).byKey.entries.length :=
          length_correlated_le rest _
        have passed : ¬(correlated keyOf rest (held.take row (some key))).byKey.entries.length ≤
            guards.maxCorrelationKeys := by
          change (held.byKey.push key row).entries.length ≤ _ at more
          rw [grown, if_pos full.1] at more
          omega
        exact (if_pos full).trans (if_neg passed).symm
      · refine (if_neg full).trans (ih (index + 1) ?_)
        change (held.byKey.push key row).entries.length ≤ _
        rw [grown]
        split_ifs with new
        · have : ¬guards.maxCorrelationKeys ≤ held.byKey.entries.length := fun much => full ⟨new, much⟩
          omega
        · exact few

/-! Which rows are whose. -/

theorem byKey_correlated (rows : List EventRow) (held : Correlated) :
    (correlated keyOf rows held).byKey = gathered keyOf rows held.byKey := by
  induction rows generalizing held with
  | nil => rfl
  | cons row rest ih =>
    rw [correlated_cons, ih, gathered, gathered, foldl_cons]
    cases keyOf row <;> rfl

theorem unidentified_correlated (rows : List EventRow) (held : Correlated) :
    (correlated keyOf rows held).rowsWithoutIdentity =
      held.rowsWithoutIdentity + rows.countP fun row => keyOf row = none := by
  induction rows generalizing held with
  | nil => rfl
  | cons row rest ih =>
    rw [correlated_cons, ih]
    cases whose : keyOf row with
    | none =>
      simp only [Correlated.take, countP_cons, whose, decide_true, if_true]
      omega
    | some key => simp [Correlated.take, whose]

theorem inTimeOrder_perm {rows rows' : List EventRow} (perm : rows.Perm rows')
    (apart : (rows.map EventRow.eventId).Nodup) : inTimeOrder rows = inTimeOrder rows' := by
  have own : (rows.map fun row => toLex (row.occurredAt, row.eventId)).Nodup := by
    refine List.Nodup.of_map (fun key : ℤ ×ₗ Id => (ofLex key).2) ?_
    rwa [map_map]
  exact insertionSort_perm _ perm own

def ordered (held : Correlated) : OrderedMap String (List EventRow) := held.byKey.mapValues fun _ owned => inTimeOrder owned

def rowsOf (keyOf : EventRow → Option String) (rows : List EventRow) (key : String) : List EventRow :=
  inTimeOrder (rows.filter fun row => keyOf row = some key)

def keysOf (keyOf : EventRow → Option String) (rows : List EventRow) : Finset String := (rows.filterMap keyOf).toFinset

theorem get?_ordered (keyOf : EventRow → Option String) (rows : List EventRow) (key : String) :
    (ordered (correlated keyOf rows ⟨∅, 0⟩)).get? key =
      if key ∈ keysOf keyOf rows then some (rowsOf keyOf rows key) else none := by
  have listed : key ∈ keysOf keyOf rows ↔ rows.filter (fun row => decide (keyOf row = some key)) ≠ [] := by
    rw [keysOf, mem_toFinset, mem_filterMap, Ne, filter_eq_nil_iff]
    simp
  rw [ordered, get?_mapValues, byKey_correlated, get?_gathered]
  split_ifs with none inside inside
  · exact absurd none (listed.mp inside)
  · rfl
  · rfl
  · exact absurd (listed.mpr none) inside

theorem ordered_perm {rows rows' : List EventRow} (perm : rows.Perm rows') (apart : (rows.map EventRow.eventId).Nodup) :
    ordered (correlated keyOf rows ⟨∅, 0⟩) = ordered (correlated keyOf rows' ⟨∅, 0⟩) := by
  refine ext_of_get? fun key => ?_
  have keys : keysOf keyOf rows = keysOf keyOf rows' := toFinset_eq_of_perm _ _ (perm.filterMap keyOf)
  have owned : rowsOf keyOf rows key = rowsOf keyOf rows' key :=
    inTimeOrder_perm (perm.filter _) ((filter_sublist.map _).nodup apart)
  rw [get?_ordered, get?_ordered, keys, owned]

theorem countP_ordered (rows : List EventRow) (p : List EventRow → Bool) :
    (ordered (correlated keyOf rows ⟨∅, 0⟩)).values.countP p =
      ((keysOf keyOf rows).filter fun key => p (rowsOf keyOf rows key) = true).card := by
  have under (x : String × List EventRow) (inside : x ∈ (ordered (correlated keyOf rows ⟨∅, 0⟩)).entries) :
      x.1 ∈ keysOf keyOf rows ∧ x.2 = rowsOf keyOf rows x.1 := by
    have held := get?_eq_some.mpr (show (x.1, x.2) ∈ _ from inside)
    rw [get?_ordered] at held
    split_ifs at held with listed
    exact ⟨listed, (Option.some.inj held).symm⟩
  have keys : ((ordered (correlated keyOf rows ⟨∅, 0⟩)).entries.map Prod.fst).toFinset = keysOf keyOf rows := by
    ext key
    rw [mem_toFinset, mem_map]
    constructor
    · rintro ⟨x, inside, rfl⟩
      exact (under x inside).1
    · intro listed
      have held := get?_ordered keyOf rows key
      rw [if_pos listed] at held
      exact ⟨_, get?_eq_some.mp held, rfl⟩
  rw [← keys, ← toFinset_filter, toFinset_card_of_nodup ((nodup_keys _).filter _), ← countP_eq_length_filter,
    countP_map, values, countP_map]
  refine countP_congr fun x inside => ?_
  rw [Function.comp_apply, Function.comp_apply, (under x inside).2]

theorem unidentified_perm {rows rows' : List EventRow} (perm : rows.Perm rows') :
    (correlated keyOf rows ⟨∅, 0⟩).rowsWithoutIdentity = (correlated keyOf rows' ⟨∅, 0⟩).rowsWithoutIdentity := by
  rw [unidentified_correlated, unidentified_correlated, perm.countP_eq]

theorem length_ordered (held : Correlated) : (ordered held).entries.length = held.byKey.entries.length := by
  simp [ordered, mapValues]

theorem values_ordered (held : Correlated) : (ordered held).values = held.byKey.values.map inTimeOrder := by
  simp [ordered, mapValues, values, Function.comp_def]

theorem mem_of_ordered {rows owned : List EventRow} {row : EventRow}
    (one : owned ∈ (ordered (correlated keyOf rows ⟨∅, 0⟩)).values) (inside : row ∈ owned) : row ∈ rows := by
  obtain ⟨key, held⟩ := mem_values_iff.mp one
  rw [get?_ordered] at held
  split_ifs at held
  cases held
  exact (List.mem_filter.mp ((mem_insertionSort _).mp inside)).1

end TallyOwl.Analysis
