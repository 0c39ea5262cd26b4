import Mathlib.Tactic.Ring

/-! Byte strings: little-endian numbers, bounded windows, and a write at an
offset. -/
namespace TallyOwl.Lib
open List

abbrev Bytes := List UInt8

def leBytes : (width n : Nat) → Bytes
  | 0, _ => []
  | width + 1, n => UInt8.ofNat (n % 256) :: leBytes width (n / 256)

def leNat : Bytes → Nat
  | [] => 0
  | b :: bs => b.toNat + 256 * leNat bs

@[simp] theorem length_leBytes (width n : Nat) : (leBytes width n).length = width := by
  induction width generalizing n with
  | zero => rfl
  | succ width ih => simp [leBytes, ih]

theorem leNat_leBytes (width n : Nat) (fits : n < 256 ^ width) : leNat (leBytes width n) = n := by
  induction width generalizing n with
  | zero =>
    have : n = 0 := by simpa using fits
    simp [leBytes, leNat, this]
  | succ width ih =>
    have tail : n / 256 < 256 ^ width := by
      rw [pow_succ] at fits
      omega
    simp only [leBytes, leNat, ih _ tail, UInt8.toNat_ofNat', Nat.reducePow]
    omega

theorem leNat_lt (bytes : Bytes) : leNat bytes < 256 ^ bytes.length := by
  induction bytes with
  | nil => simp [leNat]
  | cons b bytes ih =>
    have byte := b.toNat_lt
    simp only [leNat, length_cons, pow_succ]
    omega

theorem leBytes_leNat (bytes : Bytes) : leBytes bytes.length (leNat bytes) = bytes := by
  induction bytes with
  | nil => rfl
  | cons b bytes ih =>
    have byte := b.toNat_lt
    have low : (b.toNat + 256 * leNat bytes) % 256 = b.toNat := by omega
    have high : (b.toNat + 256 * leNat bytes) / 256 = leNat bytes := by omega
    simp [leBytes, leNat, low, high, ih]

/-- The bytes from `start` on, `width` of them, when they are all there. -/
def window (bytes : Bytes) (start width : Nat) : Option Bytes :=
  if start + width ≤ bytes.length then some ((bytes.drop start).take width) else none

theorem window_append (before x after : Bytes) : window (before ++ (x ++ after)) before.length x.length = some x := by
  simp [window]

variable {start width : Nat} {bytes x : Bytes}

theorem window_eq_some : window bytes start width = some x ↔
      start + width ≤ bytes.length ∧ (bytes.drop start).take width = x := by
  simp [window]

theorem length_of_window (found : window bytes start width = some x) : x.length = width := by
  obtain ⟨inside, rfl⟩ := window_eq_some.mp found
  simp only [length_take, length_drop]
  omega

theorem take_of_window (found : window bytes start width = some x) :
    bytes.take (start + width) = bytes.take start ++ x := by
  rw [take_add, (window_eq_some.mp found).2]

theorem window_of_lt {bytes : Bytes} (short : bytes.length < start + width) : window bytes start width = none := by
  simp [window, Nat.not_le.mpr short]

/-- Write `bytes` at an absolute offset; a gap in front of it reads as zeroes. -/
def writeAt (file : Bytes) (offset : Nat) (bytes : Bytes) : Bytes :=
  file.take offset ++ List.replicate (offset - file.length) 0 ++ bytes ++
    file.drop (offset + bytes.length)

theorem take_writeAt {file bytes : Bytes} {offset : Nat} (inside : offset ≤ file.length) :
    (writeAt file offset bytes).take offset = file.take offset := by
  have none : offset - file.length = 0 := by omega
  have exact' : (file.take offset).length = offset := by simp [inside]
  rw [writeAt, none]
  simp only [replicate_zero, append_nil, append_assoc]
  rw [take_append_of_le_length (by omega), take_of_length_le (by omega)]

theorem take_writeAt_end {file bytes : Bytes} {offset : Nat} (inside : offset ≤ file.length) :
    (writeAt file offset bytes).take (offset + bytes.length) = file.take offset ++ bytes := by
  have none : offset - file.length = 0 := by omega
  have exact' : (file.take offset ++ bytes).length = offset + bytes.length := by simp [inside]
  rw [writeAt, none]
  simp only [replicate_zero, append_nil]
  rw [take_append_of_le_length (by omega), take_of_length_le (by omega)]

end TallyOwl.Lib
