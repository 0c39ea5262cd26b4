import Mathlib.Data.List.Sort
import Mathlib.Data.List.TakeWhile

/-! Sorting with repeats removed, and the stretch of equal keys in a sorted list that
a binary search for its start finds. -/
namespace TallyOwl.Lib
open List

variable {α κ : Type*}

def dedup [DecidableEq α] : List α → List α
  | [] => []
  | [a] => [a]
  | a :: b :: rest => if a = b then dedup (b :: rest) else a :: dedup (b :: rest)

theorem dedup_sublist [DecidableEq α] (xs : List α) : (dedup xs).Sublist xs := by
  fun_induction dedup xs with
  | case1 => exact .slnil
  | case2 a => exact .refl _
  | case3 a rest ih => exact ih.cons a
  | case4 a b rest other ih => exact ih.cons_cons a

variable {xs : List α} {x : α}

theorem mem_dedup [DecidableEq α] : x ∈ dedup xs ↔ x ∈ xs := by
  fun_induction dedup xs with
  | case1 => rfl
  | case2 a => rfl
  | case3 a rest ih => simp [ih]
  | case4 a b rest other ih => simp [ih]

def sortDedup [DecidableEq α] (r : α → α → Prop) [DecidableRel r] (xs : List α) : List α :=
  dedup (xs.insertionSort r)

theorem mem_sortDedup [DecidableEq α] {r : α → α → Prop} [DecidableRel r] : x ∈ sortDedup r xs ↔ x ∈ xs := by
  rw [sortDedup, mem_dedup, mem_insertionSort]

theorem pairwise_sortDedup [DecidableEq α] {r : α → α → Prop} [DecidableRel r] [Std.Total r]
    [IsTrans α r] (xs : List α) : (sortDedup r xs).Pairwise r :=
  (pairwise_insertionSort r xs).sublist (dedup_sublist _)

variable {key : α → κ}

theorem pairwise_lt_dedup [DecidableEq α] [LinearOrder κ] (apart : Function.Injective key)
    (sorted : xs.Pairwise fun a b => key a ≤ key b) : (dedup xs).Pairwise fun a b => key a < key b := by
  fun_induction dedup xs with
  | case1 => exact .nil
  | case2 a => exact pairwise_singleton _ a
  | case3 a rest ih => exact ih (pairwise_cons.mp sorted).2
  | case4 a b rest other ih =>
    obtain ⟨first, later⟩ := pairwise_cons.mp sorted
    refine pairwise_cons.mpr ⟨fun c inside => ?_, ih later⟩
    have less : key a < key b := lt_of_le_of_ne (first b mem_cons_self) (apart.ne other)
    rcases mem_cons.mp (mem_dedup.mp inside) with rfl | after
    · exact less
    · exact less.trans_le ((pairwise_cons.mp later).1 c after)

theorem pairwise_lt_sortDedup [DecidableEq α] [LinearOrder κ] (apart : Function.Injective key) (xs : List α) :
    (sortDedup (fun a b => key a ≤ key b) xs).Pairwise fun a b => key a < key b := by
  have total : Std.Total fun a b => key a ≤ key b := ⟨fun a b => le_total _ _⟩
  have trans : IsTrans α fun a b => key a ≤ key b := ⟨fun a b c => le_trans⟩
  exact pairwise_lt_dedup apart (pairwise_insertionSort _ xs)

/-- The elements with one key, from the first that is not below it on. -/
def stretch [LT κ] [DecidableLT κ] [DecidableEq κ] (key : α → κ) (k : κ) (xs : List α) : List α :=
  (xs.dropWhile fun x => key x < k).takeWhile fun x => key x = k

variable {k : κ}

theorem dropWhile_eq_self_of_le [LinearOrder κ]
    (above : ∀ x ∈ xs, k ≤ key x) : xs.dropWhile (fun x => key x < k) = xs := by
  cases xs with
  | nil => rfl
  | cons y rest => simp [not_lt.mpr (above y mem_cons_self)]

/-- In a sorted list what a walk to the first key above `k` passes is what is not above it. -/
theorem takeWhile_eq_filter [LinearOrder κ] (sorted : xs.Pairwise fun a b => key a ≤ key b) :
    xs.takeWhile (fun x => key x ≤ k) = xs.filter fun x => key x ≤ k := by
  induction sorted with
  | nil => rfl
  | @cons y rest first sorted ih =>
    by_cases low : key y ≤ k
    · simp [low, ih]
    · have none : rest.filter (fun x => key x ≤ k) = [] := by
        simpa using fun x inside => (not_le.mp low).trans_le (first x inside)
      simp [low, none]

theorem dropWhile_eq_filter [LinearOrder κ] (sorted : xs.Pairwise fun a b => key a ≤ key b) :
    xs.dropWhile (fun x => key x ≤ k) = xs.filter fun x => k < key x := by
  induction sorted with
  | nil => rfl
  | @cons y rest first sorted ih =>
    by_cases low : key y ≤ k
    · simp [low, ih]
    · have all : rest.filter (fun x => k < key x) = rest := by
        simpa using fun x inside => (not_le.mp low).trans_le (first x inside)
      simp [low, not_le.mp low, all]

theorem mem_stretch [LinearOrder κ] (sorted : xs.Pairwise fun a b => key a ≤ key b) :
    x ∈ stretch key k xs ↔ x ∈ xs ∧ key x = k := by
  constructor
  · intro inside
    exact ⟨dropWhile_subset _ ((List.takeWhile_prefix _).subset inside),
      by simpa using mem_takeWhile_imp inside⟩
  · rintro ⟨inside, rfl⟩
    induction xs with
    | nil => cases inside
    | cons y rest ih =>
      obtain ⟨first, later⟩ := pairwise_cons.mp sorted
      have onward : x ∈ rest → x ∈ stretch key (key x) rest := fun more => ih later more
      unfold stretch at onward ⊢
      rcases lt_trichotomy (key y) (key x) with less | same | greater
      · rw [dropWhile_cons_of_pos (by simpa using less)]
        rcases mem_cons.mp inside with rfl | more
        · exact (lt_irrefl _ less).elim
        · exact onward more
      · rw [dropWhile_eq_self_of_le (by
          intro z more
          rcases mem_cons.mp more with rfl | more
          · exact same.ge
          · exact same.symm.le.trans (first z more)),
          takeWhile_cons_of_pos (by simpa using same)]
        rcases mem_cons.mp inside with rfl | more
        · exact mem_cons_self
        · rw [dropWhile_eq_self_of_le fun z more => same.symm.le.trans (first z more)] at onward
          exact mem_cons_of_mem _ (onward more)
      · rcases mem_cons.mp inside with rfl | more
        · exact (lt_irrefl _ greater).elim
        · exact (not_lt.mpr (first x more) greater).elim

end TallyOwl.Lib
