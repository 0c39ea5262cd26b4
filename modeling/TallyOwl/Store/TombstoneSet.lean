import Mathlib.Data.String.Basic
import Mathlib.Order.Fin.Basic
import TallyOwl.Lib.Buckets
import TallyOwl.Store.Tombstone

/-! The standing predicates, kept by what they name (`catalog.rs`). The index chooses which of them
are asked about a row, and the predicate decides. -/
open List TallyOwl.Lib.OrderedMap

namespace TallyOwl
open Lib

/-- The predicates of one project, each as its place in the whole list. -/
structure ProjectPredicates where
  byEvent : OrderedMap Id (List Nat)
  byKey : OrderedMap String (OrderedMap String (List Nat))
  rest : List Nat

namespace ProjectPredicates

def new : ProjectPredicates := ⟨∅, ∅, []⟩

def add (p : ProjectPredicates) (index : Nat) (t : Tombstone) : ProjectPredicates :=
  if t.eventIds ≠ [] then
    { p with byEvent := t.eventIds.foldl (fun m eventId => m.push eventId index) p.byEvent }
  else
    match t.property with
    | some (key, value) =>
        { p with byKey := p.byKey.insert key (((p.byKey.get? key).getD ∅).push value index) }
    | none => { p with rest := p.rest ++ [index] }

end ProjectPredicates

structure TombstoneSet where
  all : List Tombstone
  byProject : OrderedMap Id ProjectPredicates

section
variable (floatText : UInt64 → String)

def Tombstone.names (t : Tombstone) (row : EventRow) : Bool :=
  if t.eventIds ≠ [] then decide (row.eventId ∈ t.eventIds)
  else
    match t.property with
    | some (key, value) => heldUnder floatText row key = some value
    | none => true

def ProjectPredicates.asks (p : ProjectPredicates) (row : EventRow) (index : Nat) : Prop :=
  index ∈ p.byEvent.bucket row.eventId ∨
    (∃ key held, heldUnder floatText row key = some held ∧
      index ∈ ((p.byKey.get? key).getD ∅).bucket held) ∨ index ∈ p.rest

end

namespace TombstoneSet

def new (all : List Tombstone) : TombstoneSet :=
  ⟨all, all.zipIdx.foldl (fun m x =>
    m.insert x.1.projectId (((m.get? x.1.projectId).getD .new).add x.2 x.1)) ∅⟩

variable (floatText : UInt64 → String)

def decides (set : TombstoneSet) (row : EventRow) (indexes : List Nat) : Bool :=
  indexes.any fun index => set.all[index]?.any fun t => t.hides floatText row

def hides (set : TombstoneSet) (row : EventRow) : Bool :=
  match set.byProject.get? row.projectId with
  | none => false
  | some project =>
      (project.byEvent.get? row.eventId).any (set.decides floatText row) ||
        (project.byKey.entries.any fun x => (heldUnder floatText row x.1).any fun held =>
          (x.2.get? held).any (set.decides floatText row)) ||
        set.decides floatText row project.rest

end TombstoneSet

section
variable {floatText : UInt64 → String} {row : EventRow}

theorem ProjectPredicates.asks_new {index : Nat} : ¬ ProjectPredicates.new.asks floatText row index := by
  rintro (event | ⟨key, held, -, value⟩ | rest)
  · cases event
  · cases value
  · cases rest

theorem ProjectPredicates.asks_add {p : ProjectPredicates} {index i : Nat} {t : Tombstone} :
    (p.add i t).asks floatText row index ↔ p.asks floatText row index ∨ index = i ∧ t.names floatText row = true := by
  unfold ProjectPredicates.add Tombstone.names
  split
  · have pushed : index ∈ (t.eventIds.foldl (fun m eventId => m.push eventId i) p.byEvent).bucket row.eventId ↔
        index ∈ p.byEvent.bucket row.eventId ∨ ∃ eventId ∈ t.eventIds, eventId = row.eventId ∧ index = i :=
      mem_bucket_foldl_push
    simp only [ProjectPredicates.asks, pushed, decide_eq_true_eq]
    grind
  · split
    · rename_i key value property
      have pushed : ∀ other held, index ∈ (((p.byKey.insert key
          (((p.byKey.get? key).getD ∅).push value i)).get? other).getD ∅).bucket held ↔
            index ∈ ((p.byKey.get? other).getD ∅).bucket held ∨
              (other = key ∧ held = value) ∧ index = i := by
        intro other held
        rw [get?_insert]
        split
        · rename_i same
          subst same
          rw [Option.getD_some, mem_bucket_push]
          simp
        · rename_i apart
          simp [apart]
      simp only [ProjectPredicates.asks, pushed, decide_eq_true_eq]
      grind
    · simp only [ProjectPredicates.asks, mem_append, mem_singleton]
      grind

namespace TombstoneSet

theorem asks_foldl {xs : List (Tombstone × Nat)} {m : OrderedMap Id ProjectPredicates} {projectId : Id}
    {index : Nat} : (((xs.foldl (fun m x => m.insert x.1.projectId
      (((m.get? x.1.projectId).getD .new).add x.2 x.1)) m).get? projectId).getD .new).asks floatText row index ↔
        ((m.get? projectId).getD .new).asks floatText row index ∨
          ∃ x ∈ xs, x.1.projectId = projectId ∧ x.1.names floatText row = true ∧ index = x.2 := by
  induction xs generalizing m with
  | nil => simp
  | cons x rest ih =>
    rw [foldl_cons, ih, get?_insert]
    split
    · rename_i same
      subst same
      rw [Option.getD_some, ProjectPredicates.asks_add, or_assoc]
      simp [and_comm]
    · rename_i other
      simp [Ne.symm other]

theorem asks_new {all : List Tombstone} {projectId : Id} {index : Nat} :
    (((new all).byProject.get? projectId).getD .new).asks floatText row index ↔
      ∃ t, all[index]? = some t ∧ t.projectId = projectId ∧ t.names floatText row = true := by
  rw [new, asks_foldl]
  constructor
  · rintro (none | ⟨x, inside, project, names, rfl⟩)
    · exact (ProjectPredicates.asks_new none).elim
    · exact ⟨x.1, mem_zipIdx_iff_getElem?.mp inside, project, names⟩
  · rintro ⟨t, found, project, names⟩
    exact .inr ⟨(t, index), mem_zipIdx_iff_getElem?.mpr found, project, names, rfl⟩

theorem decides_iff {set : TombstoneSet} {indexes : List Nat} : set.decides floatText row indexes = true ↔
    ∃ index ∈ indexes, ∃ t, set.all[index]? = some t ∧ t.hides floatText row = true := by
  simp only [decides, any_eq_true, Option.any_eq_true]

theorem hides_iff_asks {set : TombstoneSet} : set.hides floatText row = true ↔
    ∃ index, ((set.byProject.get? row.projectId).getD .new).asks floatText row index ∧
      ∃ t, set.all[index]? = some t ∧ t.hides floatText row = true := by
  have listed : ∀ found : Option (List Nat), found.any (set.decides floatText row) = true ↔
      ∃ index ∈ found.getD [], ∃ t, set.all[index]? = some t ∧ t.hides floatText row = true := by
    intro found
    cases found with
    | none => simp
    | some indexes => rw [Option.any_some, decides_iff, Option.getD_some]
  unfold hides
  cases found : set.byProject.get? row.projectId with
  | none => simp [ProjectPredicates.asks_new]
  | some p =>
    have keyed : (p.byKey.entries.any fun x => (heldUnder floatText row x.1).any fun held =>
        (x.2.get? held).any (set.decides floatText row)) = true ↔ ∃ key held,
          heldUnder floatText row key = some held ∧ ∃ index ∈ ((p.byKey.get? key).getD ∅).bucket held,
            ∃ t, set.all[index]? = some t ∧ t.hides floatText row = true := by
      simp only [any_eq_true, Option.any_eq_true, listed]
      constructor
      · rintro ⟨x, inside, held, holds, index, there, decides⟩
        refine ⟨x.1, held, holds, index, ?_, decides⟩
        rwa [get?_eq_some.mpr inside]
      · rintro ⟨key, held, holds, index, there, decides⟩
        cases known : p.byKey.get? key with
        | none => simp [known] at there
        | some byValue =>
          rw [known, Option.getD_some] at there
          exact ⟨(key, byValue), get?_eq_some.mp known, held, holds, index, there, decides⟩
    simp only [Bool.or_eq_true, listed, keyed, decides_iff, Option.getD_some, ProjectPredicates.asks]
    grind [OrderedMap.bucket]

theorem hides_new (all : List Tombstone) (row : EventRow) :
    (new all).hides floatText row = hiddenBy floatText all row := by
  rw [Bool.eq_iff_iff, hides_iff_asks, hiddenBy, any_eq_true]
  simp only [asks_new, Bool.and_eq_true, decide_eq_true_eq]
  constructor
  · rintro ⟨index, ⟨t, found, project, names⟩, t', same, hides⟩
    obtain rfl : t = t' := Option.some.inj (found.symm.trans same)
    exact ⟨t, mem_of_getElem? found, ⟨project, names⟩, hides⟩
  · rintro ⟨t, inside, ⟨project, names⟩, hides⟩
    obtain ⟨index, found⟩ := getElem?_of_mem inside
    exact ⟨index, ⟨t, found, project, names⟩, t, found, hides⟩

end TombstoneSet

/-- The set of the predicates hides a row exactly where one of them does. -/
theorem set_hides_iff (all : List Tombstone) (row : EventRow) :
    (TombstoneSet.new all).hides floatText row = true ↔ ∃ t ∈ all, t.hides floatText row = true := by
  rw [TombstoneSet.hides_new, hiddenBy_iff]

end

end TallyOwl
