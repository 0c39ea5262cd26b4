import TallyOwl.Lib.Bytes

/-! The byte readers and writers of `segment/format.rs`. Every multi-byte number
is little-endian, and every read goes through `slice`. -/
namespace TallyOwl.Format
open Lib

inductive FormatError where
  | incomplete (message : String)
  | damaged (message : String)
  | unsupported (message : String)
  deriving DecidableEq

def stopsEarly : String :=
  "This stored file stops before it should. It was probably not finished being written."

/-- `at.saturating_add(length)` past the end of memory is past the end of any
slice, so the sum is taken exactly. -/
def slice (bytes : Bytes) (start length : Nat) : Except FormatError Bytes :=
  match window bytes start length with
  | some found => .ok found
  | none => .error (.incomplete stopsEarly)

def putU32 (value : Nat) : Bytes := leBytes 4 value

def putU64 (value : Nat) : Bytes := leBytes 8 value

def getU32 (bytes : Bytes) (start : Nat) : Except FormatError Nat :=
  (slice bytes start 4).map leNat

def getU64 (bytes : Bytes) (start : Nat) : Except FormatError Nat :=
  (slice bytes start 8).map leNat

@[simp] theorem length_putU32 (value : Nat) : (putU32 value).length = 4 := by simp [putU32]

@[simp] theorem length_putU64 (value : Nat) : (putU64 value).length = 8 := by simp [putU64]

theorem slice_append (before x after : Bytes) : slice (before ++ (x ++ after)) before.length x.length = .ok x := by
  rw [slice, window_append]

theorem slice_error {bytes : Bytes} {start length : Nat} (short : bytes.length < start + length) :
    slice bytes start length = .error (.incomplete stopsEarly) := by
  rw [slice, window_of_lt short]

theorem getU32_append (before after : Bytes) (value : Nat) (fits : value < 2 ^ 32) :
    getU32 (before ++ (putU32 value ++ after)) before.length = .ok value := by
  have found := slice_append before (putU32 value) after
  rw [length_putU32] at found
  rw [getU32, found, putU32]
  exact congrArg Except.ok (leNat_leBytes 4 value (by omega))

theorem getU64_append (before after : Bytes) (value : Nat) (fits : value < 2 ^ 64) :
    getU64 (before ++ (putU64 value ++ after)) before.length = .ok value := by
  have found := slice_append before (putU64 value) after
  rw [length_putU64] at found
  rw [getU64, found, putU64]
  exact congrArg Except.ok (leNat_leBytes 8 value (by omega))

theorem slice_ok {bytes x : Bytes} {start length : Nat} :
    slice bytes start length = .ok x ↔ window bytes start length = some x := by
  unfold slice
  split <;> simp_all

theorem getU32_ok {bytes : Bytes} {start value : Nat} (read : getU32 bytes start = .ok value) :
    value < 2 ^ 32 ∧ window bytes start 4 = some (putU32 value) := by
  cases found : slice bytes start 4 with
  | error e => simp [getU32, found, Except.map] at read
  | ok x =>
    have width := length_of_window (slice_ok.mp found)
    obtain rfl : leNat x = value := by simpa [getU32, found, Except.map] using read
    have bound := leNat_lt x
    have back := leBytes_leNat x
    rw [width] at bound back
    exact ⟨by omega, by rw [putU32, back]; exact slice_ok.mp found⟩

theorem getU64_ok {bytes : Bytes} {start value : Nat} (read : getU64 bytes start = .ok value) :
    value < 2 ^ 64 ∧ window bytes start 8 = some (putU64 value) := by
  cases found : slice bytes start 8 with
  | error e => simp [getU64, found, Except.map] at read
  | ok x =>
    have width := length_of_window (slice_ok.mp found)
    obtain rfl : leNat x = value := by simpa [getU64, found, Except.map] using read
    have bound := leNat_lt x
    have back := leBytes_leNat x
    rw [width] at bound back
    exact ⟨by omega, by rw [putU64, back]; exact slice_ok.mp found⟩

theorem getU32_past_end (bytes : Bytes) : getU32 bytes bytes.length = .error (.incomplete stopsEarly) := by
  rw [getU32, slice_error (by omega)]
  rfl

end TallyOwl.Format
