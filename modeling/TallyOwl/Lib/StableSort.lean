import Mathlib.Data.List.Sort

/-! Sorting by a key keeps the order of what has one key, so what it gives depends on that order only. -/
namespace TallyOwl.Lib
open List

variable {α κ : Type*} [LinearOrder κ] {key : α → κ} {xs ys : List α}

theorem pairwise_sorted (xs : List α) :
    (xs.insertionSort fun a b => key a ≤ key b).Pairwise fun a b => key a ≤ key b := by
  have total : Std.Total fun a b : α => key a ≤ key b := ⟨fun a b => le_total _ _⟩
  have trans : IsTrans α fun a b => key a ≤ key b := ⟨fun a b c => le_trans⟩
  exact pairwise_insertionSort _ xs

theorem filter_orderedInsert (a : α) (xs : List α) (k : κ) :
    (xs.orderedInsert (fun a b => key a ≤ key b) a).filter (fun x => key x = k) = (a :: xs).filter fun x => key x = k := by
  induction xs with
  | nil => rfl
  | cons b rest ih =>
    rw [orderedInsert_cons]
    split_ifs with before
    · rfl
    · -- what `a` goes behind has another key
      have other : key a ≠ key b := fun same => before same.le
      rw [filter_cons, ih]
      by_cases mine : key a = k
      · have apart : key b ≠ k := fun same => other (mine.trans same.symm)
        simp [mine, apart]
      · by_cases his : key b = k <;> simp [mine, his]

theorem filter_insertionSort (xs : List α) (k : κ) :
    (xs.insertionSort fun a b => key a ≤ key b).filter (fun x => key x = k) = xs.filter fun x => key x = k := by
  induction xs with
  | nil => rfl
  | cons a rest ih => rw [insertionSort_cons, filter_orderedInsert, filter_cons, filter_cons, ih]

theorem eq_of_filters (sorted : xs.Pairwise fun a b => key a ≤ key b) (also : ys.Pairwise fun a b => key a ≤ key b)
    (same : ∀ k, xs.filter (fun x => key x = k) = ys.filter fun x => key x = k) : xs = ys := by
  induction xs generalizing ys with
  | nil =>
    refine (eq_nil_iff_forall_not_mem.mpr fun y inside => ?_).symm
    have there : y ∈ ys.filter fun x => key x = key y := by simp [inside]
    rw [← same] at there
    simp at there
  | cons x rest ih =>
    obtain ⟨first, later⟩ := pairwise_cons.mp sorted
    have here : x ∈ ys := by
      have inside : x ∈ (x :: rest).filter fun y => key y = key x := by simp
      rw [same] at inside
      exact (List.mem_filter.mp inside).1
    cases ys with
    | nil => cases here
    | cons y after =>
      obtain ⟨before, behind⟩ := pairwise_cons.mp also
      have there : y ∈ x :: rest := by
        have inside : y ∈ (y :: after).filter fun z => key z = key y := by simp
        rw [← same] at inside
        exact (List.mem_filter.mp inside).1
      have low : key x ≤ key y := by
        rcases mem_cons.mp there with rfl | inside
        · exact le_refl _
        · exact first y inside
      have high : key y ≤ key x := by
        rcases mem_cons.mp here with rfl | inside
        · exact le_refl _
        · exact before x inside
      have heads := same (key x)
      rw [filter_cons_of_pos (by simp), filter_cons_of_pos (by simp [le_antisymm high low])] at heads
      obtain ⟨rfl, -⟩ := List.cons.inj heads
      refine congrArg _ (ih later behind fun k => ?_)
      have all := same k
      rw [filter_cons, filter_cons] at all
      split_ifs at all with mine
      · exact (List.cons.inj all).2
      · exact all

theorem insertionSort_congr (same : ∀ k, xs.filter (fun x => key x = k) = ys.filter fun x => key x = k) :
    (xs.insertionSort fun a b => key a ≤ key b) = ys.insertionSort fun a b => key a ≤ key b :=
  eq_of_filters (pairwise_sorted xs) (pairwise_sorted ys) fun k => by
    rw [filter_insertionSort, filter_insertionSort, same]

theorem insertionSort_perm (key : α → κ) (perm : xs.Perm ys) (apart : (xs.map key).Nodup) :
    (xs.insertionSort fun a b => key a ≤ key b) = ys.insertionSort fun a b => key a ≤ key b := by
  have both := (perm_insertionSort (fun a b => key a ≤ key b) xs).trans
    (perm.trans (perm_insertionSort (fun a b => key a ≤ key b) ys).symm)
  refine List.Perm.eq_of_pairwise (fun a b one two low high => ?_) (pairwise_sorted xs) (pairwise_sorted ys) both
  have first := (mem_insertionSort _).mp one
  have second := perm.mem_iff.mpr ((mem_insertionSort _).mp two)
  exact inj_on_of_nodup_map apart first second (le_antisymm low high)

end TallyOwl.Lib
