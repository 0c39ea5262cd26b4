import TallyOwl.Store.LocatorComplete

/-! An exact lookup (`lookup_correlated`). A locator that names no segment for the value prunes
nothing, and one that names a segment prunes every other. Whether the index of a segment's
file may hold a value is a parameter of the rows it was written with. -/
namespace TallyOwl.Search
open Lib Format Locate List

section
variable {α β : Type*} {keep : α → Prop} [DecidablePred keep] {xs : List α} {f : α → List β} {ys : List β}

theorem flatMap_filter_perm_iff : (ys ++ (xs.filter fun x => keep x).flatMap f).Perm (ys ++ xs.flatMap f) ↔
    ∀ x ∈ xs, f x ≠ [] → keep x := by
  have halves : (xs.flatMap f).Perm ((xs.filter fun x => keep x).flatMap f ++
      (xs.filter fun x => ¬ keep x).flatMap f) := by
    rw [← flatMap_append]
    have split := filter_append_perm (fun x => decide (keep x)) xs
    simpa only [decide_not] using (split.symm.flatMap_right f)
  constructor
  · intro perm x inside some
    by_contra gone
    have whole := (perm_append_left_iff ys).mp perm
    have sizes := (whole.trans halves).length_eq
    rw [length_append] at sizes
    have empty : (xs.filter fun x => ¬ keep x).flatMap f = [] := eq_nil_of_length_eq_zero (by omega)
    have there : x ∈ xs.filter fun x => ¬ keep x := List.mem_filter.mpr ⟨inside, by simpa using gone⟩
    exact some (flatMap_eq_nil_iff.mp empty x there)
  · intro kept
    have empty : (xs.filter fun x => ¬ keep x).flatMap f = [] := by
      refine flatMap_eq_nil_iff.mpr fun x there => ?_
      obtain ⟨inside, gone⟩ := List.mem_filter.mp there
      by_contra some
      exact absurd (kept x inside some) (by simpa using gone)
    rw [empty, append_nil] at halves
    exact (halves.symm.append_left ys)

end

section
variable (floatText : UInt64 → String) (mayHold : List EventRow → String → Bytes → Bool)
variable (column : String) (value : Bytes)

/-- What a lookup looks for: a row that carries the value and that no predicate hides. -/
def asked (tombstones : List Tombstone) (row : EventRow) : Bool :=
  rowCarries floatText row column value && !hiddenBy floatText tombstones row

/-- The segments whose file a lookup opens and whose index does not rule the value out. -/
def Reads (candidates : List Id) (rowsOf : Id → List EventRow) (m : Manifest) : Prop :=
  (candidates = [] ∨ m.segmentId ∈ candidates) ∧ mayHold (rowsOf m.segmentId) column value = true

instance (candidates : List Id) (rowsOf : Id → List EventRow) :
    DecidablePred (Reads mayHold column value candidates rowsOf) :=
  fun _ => inferInstanceAs (Decidable (_ ∧ _))

/-- The rows of the segments that carry the value, segment by segment. -/
def found (candidates : List Id) (manifests : List Manifest) (rowsOf : Id → List EventRow) : List EventRow :=
  (manifests.filter fun m => Reads mayHold column value candidates rowsOf m).flatMap fun m =>
    (rowsOf m.segmentId).filter fun row => rowCarries floatText row column value

/-- The answer, in the order of occurrence: what memory and the segments gave, less what is hidden. -/
def visible (tombstones : List Tombstone) (rows : List EventRow) : List EventRow :=
  (rows.filter fun row => !hiddenBy floatText tombstones row).insertionSort
    fun a b => a.occurredAt ≤ b.occurredAt

section
variable {floatText mayHold column value}

theorem visible_found_iff {tombstones : List Tombstone} {memory : List EventRow} {candidates : List Id}
    {manifests : List Manifest} {rowsOf : Id → List EventRow} :
    (visible floatText tombstones ((memory.filter fun row => rowCarries floatText row column value) ++
      found floatText mayHold column value candidates manifests rowsOf)).Perm
        ((memory ++ manifests.flatMap fun m => rowsOf m.segmentId).filter (asked floatText column value tombstones)) ↔
    ∀ m ∈ manifests, (∃ row ∈ rowsOf m.segmentId, asked floatText column value tombstones row = true) →
      Reads mayHold column value candidates rowsOf m := by
  have both : ∀ rows : List EventRow, (rows.filter fun row => rowCarries floatText row column value).filter
      (fun row => !hiddenBy floatText tombstones row) =
        rows.filter (asked floatText column value tombstones) := by
    intro rows
    rw [filter_filter]
    exact filter_congr fun row _ => Bool.and_comm _ _
  have sorted : (visible floatText tombstones
      ((memory.filter fun row => rowCarries floatText row column value) ++
        found floatText mayHold column value candidates manifests rowsOf)).Perm
      (memory.filter (asked floatText column value tombstones) ++
        (manifests.filter fun m => Reads mayHold column value candidates rowsOf m).flatMap fun m =>
          (rowsOf m.segmentId).filter (asked floatText column value tombstones)) := by
    refine (perm_insertionSort _ _).trans (List.Perm.of_eq ?_)
    rw [filter_append, both, found, filter_flatMap]
    exact congrArg _ (flatMap_congr fun m _ => both _)
  have stored : (memory ++ manifests.flatMap fun m => rowsOf m.segmentId).filter
      (asked floatText column value tombstones) =
        memory.filter (asked floatText column value tombstones) ++
          manifests.flatMap fun m => (rowsOf m.segmentId).filter (asked floatText column value tombstones) := by
    rw [filter_append, filter_flatMap]
  rw [stored]
  refine (sorted.congr_left _).trans (flatMap_filter_perm_iff.trans ?_)
  refine forall₂_congr fun m _ => imp_congr_left ?_
  simp only [ne_eq, filter_eq_nil_iff, not_forall, not_not, exists_prop]

end

end

end TallyOwl.Search
