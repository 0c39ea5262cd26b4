import TallyOwl.Lib.Checked
import TallyOwl.Store.Format

/-! The variable-length numbers of `segment/format.rs`. Offsets are machine words, and a
sum of them is taken as one. -/
namespace TallyOwl.Format
open Lib List

def putU16 (value : Nat) : Bytes := leBytes 2 value

def getU16 (bytes : Bytes) (start : Nat) : Except FormatError Nat :=
  (slice bytes start 2).map leNat

/-- Seven bits a byte, the least significant first. A `u64` has at most ten groups. -/
def putVarintFrom : (groups value : Nat) → Bytes
  | 0, _ => []
  | groups + 1, value =>
      if value < 0x80 then [UInt8.ofNat value]
      else UInt8.ofNat (value % 0x80 + 0x80) :: putVarintFrom groups (value / 0x80)

def putVarint (value : Nat) : Bytes := putVarintFrom 10 value

/-- The groups from one shift on. The bits of the last group that no `u64` has are
dropped. -/
def getVarintFrom (bytes : Bytes) : (groups shift used value : Nat) → Checked FormatError (Nat × Nat)
  | 0, _, _, _ => .fail (.damaged "A stored number is longer than any number can be.")
  | groups + 1, shift, used, value =>
      match bytes[used]? with
      | none => .fail (.incomplete "A stored number stops before it should.")
      | some byte => do
          let next ← Checked.word (used + 1)
          let value := value + byte.toNat % 0x80 * 2 ^ shift % 2 ^ 64
          if byte.toNat < 0x80 then .ok (value, next)
          else getVarintFrom bytes groups (shift + 7) next value

def getVarint (bytes : Bytes) (start : Nat) : Checked FormatError (Nat × Nat) :=
  getVarintFrom bytes 10 0 start 0

def zigzag (v : Int) : Nat := if 0 ≤ v then (2 * v).toNat else (-2 * v - 1).toNat

def unzigzag (n : Nat) : Int := if n % 2 = 0 then (n / 2 : Nat) else -(n / 2 : Nat) - 1

@[simp] theorem unzigzag_zigzag (v : Int) : unzigzag (zigzag v) = v := by
  unfold unzigzag zigzag
  split <;> split <;> omega

@[simp] theorem zigzag_unzigzag (n : Nat) : zigzag (unzigzag n) = n := by
  unfold unzigzag zigzag
  split <;> split <;> omega

theorem zigzag_lt {v : Int} (low : -2 ^ 63 ≤ v) (high : v < 2 ^ 63) : zigzag v < 2 ^ 64 := by
  unfold zigzag
  split <;> omega

@[simp] theorem length_putU16 (value : Nat) : (putU16 value).length = 2 := by simp [putU16]

theorem getU16_append (before after : Bytes) (value : Nat) (fits : value < 2 ^ 16) :
    getU16 (before ++ (putU16 value ++ after)) before.length = .ok value := by
  have found := slice_append before (putU16 value) after
  rw [length_putU16] at found
  rw [getU16, found, putU16]
  exact congrArg Except.ok (leNat_leBytes 2 value (by omega))

theorem length_putVarint_pos (value : Nat) : 0 < (putVarint value).length := by
  unfold putVarint putVarintFrom
  split <;> simp

theorem getVarintFrom_append (groups shift value held : Nat) (before after : Bytes)
    (fits : value < 2 ^ (7 * groups)) (room : held + value * 2 ^ shift < 2 ^ 64)
    (inside : (before ++ (putVarintFrom groups value ++ after)).length < 2 ^ 64) (positive : 0 < groups) :
    getVarintFrom (before ++ (putVarintFrom groups value ++ after)) groups shift before.length held =
      .ok (held + value * 2 ^ shift, before.length + (putVarintFrom groups value).length) := by
  induction groups generalizing shift value held before with
  | zero => omega
  | succ groups ih =>
    have short : before.length + 1 < 2 ^ 64 := by
      have one : 0 < (putVarintFrom (groups + 1) value).length := by
        unfold putVarintFrom
        split <;> simp
      simp only [length_append] at inside
      omega
    unfold putVarintFrom at inside ⊢
    split
    · rename_i small
      have byte : (UInt8.ofNat value).toNat = value := by
        rw [UInt8.toNat_ofNat']
        omega
      have low : value % 128 * 2 ^ shift % 2 ^ 64 = value * 2 ^ shift := by
        rw [Nat.mod_eq_of_lt small, Nat.mod_eq_of_lt (by omega)]
      simp only [singleton_append, getVarintFrom]
      rw [getElem?_append_right (le_refl _)]
      simp only [Nat.sub_self, getElem?_cons_zero, byte, Checked.word_of_lt short, Checked.ok_bind,
        low, small, if_true]
      rfl
    · rename_i large
      rw [if_neg large] at inside
      have byte : (UInt8.ofNat (value % 0x80 + 0x80)).toNat = value % 0x80 + 0x80 := by
        rw [UInt8.toNat_ofNat']
        omega
      have split : value * 2 ^ shift = value % 128 * 2 ^ shift + value / 128 * 2 ^ (shift + 7) := by
        conv_lhs => rw [← Nat.div_add_mod value 128]
        ring
      have less : value % 128 * 2 ^ shift ≤ value * 2 ^ shift := split ▸ Nat.le_add_right _ _
      have low : value % 128 * 2 ^ shift % 2 ^ 64 = value % 128 * 2 ^ shift :=
        Nat.mod_eq_of_lt (by omega)
      have more : 0 < groups := by
        rcases Nat.eq_zero_or_pos groups with rfl | positive
        · norm_num at fits
          omega
        · exact positive
      have tail := ih (shift + 7) (value / 128) (held + value % 128 * 2 ^ shift)
        (before ++ [UInt8.ofNat (value % 0x80 + 0x80)])
        (by rw [show 7 * (groups + 1) = 7 * groups + 7 by ring, pow_add] at fits; omega)
        (by omega) (by simpa using inside) more
      simp only [append_assoc, singleton_append, length_append, length_singleton]
        at tail
      have cut : (value % 128 + 128) % 128 = value % 128 := by omega
      simp only [cons_append, getVarintFrom]
      rw [getElem?_append_right (le_refl _)]
      simp only [Nat.sub_self, getElem?_cons_zero, byte, Checked.word_of_lt short, Checked.ok_bind,
        cut, low]
      rw [if_neg (by omega), tail]
      simp only [length_cons, split]
      congr 2 <;> omega

theorem getVarint_append {value : Nat} (fits : value < 2 ^ 64) (before after : Bytes)
    (inside : (before ++ (putVarint value ++ after)).length < 2 ^ 64) :
    getVarint (before ++ (putVarint value ++ after)) before.length =
      .ok (value, before.length + (putVarint value).length) := by
  have read := getVarintFrom_append 10 0 value 0 before after (fits.trans (by decide)) (by omega) inside
    (by decide)
  simpa [getVarint, putVarint] using read

theorem getVarintFrom_ok {bytes : Bytes} {groups shift used held value next : Nat}
    (read : getVarintFrom bytes groups shift used held = .ok (value, next)) : used < next ∧ next ≤ bytes.length := by
  induction groups generalizing shift used held with
  | zero => cases read
  | succ groups ih =>
    unfold getVarintFrom at read
    split at read
    · cases read
    · rename_i byte found
      have inside := (List.getElem?_eq_some_iff.mp found).1
      obtain ⟨past, here, rest⟩ := Checked.bind_eq_ok.mp read
      obtain ⟨-, rfl⟩ := Checked.word_eq_ok.mp here
      dsimp only at rest
      split at rest
      · obtain ⟨-, rfl⟩ := Prod.mk.injEq .. ▸ Except.ok.inj rest
        omega
      · obtain ⟨after, bound⟩ := ih rest
        omega

theorem add_mul_lt {held digit places base : Nat} (low : held < base) (less : digit < places) :
    held + digit * base < places * base :=
  calc held + digit * base < base + digit * base := by omega
    _ = (digit + 1) * base := by ring
    _ ≤ places * base := Nat.mul_le_mul_right base less

theorem getVarintFrom_shortest {bytes : Bytes} {groups shift used held value next : Nat}
    (whole : shift + 7 * groups = 70) (low : held < 2 ^ shift)
    (read : getVarintFrom bytes groups shift used held = .ok (value, next)) :
    ∃ rest, value = held + rest * 2 ^ shift ∧ value < 2 ^ 64 ∧ used + (putVarintFrom groups rest).length ≤ next := by
  induction groups generalizing shift used held with
  | zero => cases read
  | succ groups ih =>
    unfold getVarintFrom at read
    split at read
    · cases read
    · rename_i byte found
      obtain ⟨past, here, read⟩ := Checked.bind_eq_ok.mp read
      obtain ⟨-, rfl⟩ := Checked.word_eq_ok.mp here
      have room : 2 ^ 64 = 2 ^ (64 - shift) * 2 ^ shift := by
        rw [← pow_add]
        congr 1
        omega
      -- the bits that stay inside a `u64`
      have kept : byte.toNat % 128 * 2 ^ shift % 2 ^ 64 = byte.toNat % 128 % 2 ^ (64 - shift) * 2 ^ shift := by
        rw [room, Nat.mul_mod_mul_right]
      dsimp only at read
      split at read
      · obtain ⟨rfl, rfl⟩ := Prod.mk.injEq .. ▸ Except.ok.inj read
        have small := Nat.mod_lt (byte.toNat % 128) (Nat.two_pow_pos (64 - shift))
        have less := Nat.mod_le (byte.toNat % 128) (2 ^ (64 - shift))
        refine ⟨byte.toNat % 128 % 2 ^ (64 - shift), by rw [kept], ?_, ?_⟩
        · rw [kept, room]
          exact add_mul_lt low small
        · rw [putVarintFrom, if_pos (by omega), length_singleton]
      · rcases Nat.eq_zero_or_pos groups with rfl | more
        · cases read
        · have deep : 2 ^ 7 ≤ 2 ^ (64 - shift) := Nat.pow_le_pow_right (by decide) (by omega)
          have same : byte.toNat % 128 % 2 ^ (64 - shift) = byte.toNat % 128 := Nat.mod_eq_of_lt (by omega)
          rw [kept, same] at read
          have below : held + byte.toNat % 128 * 2 ^ shift < 2 ^ (shift + 7) := by
            rw [pow_add, mul_comm (2 ^ shift)]
            exact add_mul_lt low (Nat.mod_lt _ (by decide))
          obtain ⟨rest, is, fits, length⟩ := ih (by omega) below read
          refine ⟨byte.toNat % 128 + 128 * rest, by rw [is, pow_add]; ring, fits, ?_⟩
          unfold putVarintFrom
          split
          · have one : 0 < (putVarintFrom groups rest).length := by
              obtain ⟨fewer, rfl⟩ := Nat.exists_eq_succ_of_ne_zero more.ne'
              unfold putVarintFrom
              split <;> simp
            rw [length_singleton]
            omega
          · rw [length_cons, show (byte.toNat % 128 + 128 * rest) / 128 = rest by omega]
            omega

theorem getVarint_shortest {bytes : Bytes} {start value next : Nat} (read : getVarint bytes start = .ok (value, next)) :
    value < 2 ^ 64 ∧ start + (putVarint value).length ≤ next := by
  obtain ⟨rest, is, fits, length⟩ := getVarintFrom_shortest (by decide) (by decide) read
  have same : rest = value := by simpa using is.symm
  exact ⟨fits, by rwa [same] at length⟩

end TallyOwl.Format
