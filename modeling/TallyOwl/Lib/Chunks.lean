import Mathlib.Data.List.Basic

/-! Lists cut into pieces of one size. -/
namespace TallyOwl.Lib
open List

def divCeil (a b : ℕ) : ℕ := if a % b = 0 then a / b else a / b + 1

def chunks {α : Type*} (size : ℕ) (xs : List α) : List (List α) :=
  (List.range (divCeil xs.length size)).map fun k => (xs.drop (k * size)).take size

theorem length_chunks {α : Type*} (size : ℕ) (xs : List α) : (chunks size xs).length = divCeil xs.length size := by
  simp [chunks]

theorem le_divCeil_mul (a : ℕ) {b : ℕ} (positive : 0 < b) : a ≤ divCeil a b * b := by
  have whole := Nat.div_add_mod a b
  have rest := Nat.mod_lt a positive
  rw [Nat.mul_comm] at whole
  unfold divCeil
  split
  · omega
  · rw [Nat.add_mul]
    omega

theorem divCeil_le (a : ℕ) {b : ℕ} (positive : 0 < b) : divCeil a b ≤ a := by
  have whole := Nat.div_add_mod a b
  have less : a / b ≤ b * (a / b) := Nat.le_mul_of_pos_left _ positive
  unfold divCeil
  split <;> omega

theorem flatten_chunks {α : Type*} {size : ℕ} (positive : 0 < size) (xs : List α) : (chunks size xs).flatten = xs := by
  have first (n : ℕ) : ((List.range n).map fun k => (xs.drop (k * size)).take size).flatten =
      xs.take (n * size) := by
    induction n with
    | zero => simp
    | succ n ih => simp [range_succ, ih, Nat.succ_mul, take_add]
  rw [chunks, first, take_of_length_le (le_divCeil_mul _ positive)]

theorem chunk_ne_nil {α : Type*} {size : ℕ} (positive : 0 < size) {xs piece : List α}
    (inside : piece ∈ chunks size xs) : piece ≠ [] := by
  obtain ⟨k, below, rfl⟩ := mem_map.mp inside
  rw [mem_range] at below
  have start : k * size < xs.length := by
    have whole := Nat.div_add_mod xs.length size
    rw [Nat.mul_comm] at whole
    unfold divCeil at below
    split at below
    · have more := Nat.mul_le_mul_right size (Nat.succ_le_of_lt below)
      rw [Nat.succ_mul] at more
      omega
    · have more := Nat.mul_le_mul_right size (Nat.le_of_lt_succ below)
      omega
  rw [← length_pos_iff_ne_nil, length_take, length_drop]
  omega

end TallyOwl.Lib
