import Mathlib.Data.List.Forall2
import Mathlib.Order.Basic

/-! Tests put to a list one behind the other: each takes the first element that passes it behind the one taken last.
No other choice of elements in order passes more tests, and where the list ascends none ends earlier. -/
namespace TallyOwl.Lib
open List

variable {α : Type*}

def takeEach : List (α → Bool) → List α → List (Option α)
  | [], _ => []
  | p :: ps, xs =>
      match xs.dropWhile fun x => !p x with
      | [] => none :: ps.map fun _ => none
      | x :: later => some x :: takeEach ps later

def Passes (ps : List (α → Bool)) (chosen : List α) : Prop := List.Forall₂ (fun p x => p x = true) ps chosen

/-- What comes before the first element that passes holds nothing of a choice that begins with one. -/
theorem sublist_dropWhile {p : α → Bool} {x : α} {xs chosen : List α} (passes : p x = true)
    (sub : (x :: chosen).Sublist xs) : (x :: chosen).Sublist (xs.dropWhile fun y => !p y) := by
  induction xs with
  | nil => cases sub
  | cons y rest ih =>
    cases first : p y with
    | true => rwa [dropWhile_cons_of_neg (by simp [first])]
    | false =>
      rw [dropWhile_cons_of_pos (by simp [first])]
      cases sub with
      | cons _ inside => exact ih inside
      | cons_cons _ _ =>
        rw [passes] at first
        cases first

theorem sublist_later {x y : α} {chosen later : List α} (sub : (x :: chosen).Sublist (y :: later)) :
    chosen.Sublist later := by
  cases sub with
  | cons _ inside => exact sublist_of_cons_sublist inside
  | cons_cons _ inside => exact inside

theorem takeEach_passes {ps : List (α → Bool)} {xs : List α} {k : ℕ} {x : α}
    (taken : (takeEach ps xs)[k]? = some (some x)) :
    ∃ chosen, chosen.Sublist xs ∧ Passes (ps.take (k + 1)) chosen ∧ chosen.getLast? = some x := by
  induction ps generalizing xs k with
  | nil => simp [takeEach] at taken
  | cons p ps ih =>
    unfold takeEach at taken
    cases left : xs.dropWhile fun x => !p x with
    | nil =>
      rw [left] at taken
      have none : (none : Option α) :: ps.map (fun _ => none) = List.replicate (ps.length + 1) none := by
        rw [map_const', replicate_succ]
      simp only [none] at taken
      cases eq_of_mem_replicate (mem_of_getElem? taken)
    | cons y later =>
      rw [left] at taken
      have rest : (y :: later).Sublist xs := left ▸ dropWhile_sublist _
      have passes : p y = true := by
        have head := head?_dropWhile_not (fun x => !p x) xs
        rw [left] at head
        simpa using head
      cases k with
      | zero =>
        obtain rfl := Option.some.inj (Option.some.inj taken)
        exact ⟨[y], (singleton_sublist.mpr mem_cons_self).trans rest, .cons passes .nil, rfl⟩
      | succ k =>
        obtain ⟨chosen, inside, all, last⟩ := ih (show (takeEach ps later)[k]? = some (some x) from taken)
        refine ⟨y :: chosen, (inside.cons_cons y).trans rest, .cons passes all, ?_⟩
        rw [getLast?_cons, last]
        rfl

variable {κ : Type*} [Preorder κ] {key : α → κ}

theorem takeEach_least {ps : List (α → Bool)} {xs chosen : List α} {k : ℕ} {y : α}
    (ascends : xs.Pairwise fun a b => key a ≤ key b) (sub : chosen.Sublist xs) (length : k < ps.length)
    (passes : Passes (ps.take (k + 1)) chosen) (last : chosen.getLast? = some y) :
    ∃ x, (takeEach ps xs)[k]? = some (some x) ∧ key x ≤ key y := by
  induction ps generalizing xs k chosen with
  | nil => cases length
  | cons p ps ih =>
    rw [take_succ_cons] at passes
    cases passes with
    | @cons _ c _ chosen own rest =>
      have behind := sublist_dropWhile own sub
      unfold takeEach
      cases left : xs.dropWhile fun x => !p x with
      | nil =>
        rw [left] at behind
        cases behind
      | cons x later =>
        rw [left] at behind
        have order : (x :: later).Pairwise fun a b => key a ≤ key b :=
          ascends.sublist (left ▸ dropWhile_sublist _)
        cases k with
        | zero =>
          obtain rfl : chosen = [] := by
            cases rest
            rfl
          cases last
          refine ⟨x, rfl, ?_⟩
          rcases mem_cons.mp (singleton_sublist.mp behind) with rfl | inside
          · exact le_refl _
          · exact (pairwise_cons.mp order).1 c inside
        | succ k =>
          have more : chosen ≠ [] := by
            rintro rfl
            have none := List.Forall₂.length_eq rest
            have small : k + 1 < ps.length + 1 := length
            rw [length_take, length_nil] at none
            omega
          rw [getLast?_cons_of_ne_nil more] at last
          exact ih (pairwise_cons.mp order).2 (sublist_later behind) (Nat.lt_of_succ_lt_succ length) rest last

end TallyOwl.Lib
