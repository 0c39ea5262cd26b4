import Mathlib.Data.List.Flatten
import TallyOwl.Store.Segment.Split

/-! Stretches of a column. None is longer in bytes than the column, since a varint of a sum is no longer than the
varints of its parts; so the pages of a column that any page can hold are pages that a reader takes. -/
namespace TallyOwl.SegmentFormat
open Lib Lib.Checked Format Locate Cbor RowCodec List

theorem length_putVarintFrom_le (groups : Nat) {value k : Nat} (positive : 0 < k) (fits : value < 2 ^ (7 * k)) :
    (putVarintFrom groups value).length ≤ k := by
  induction groups generalizing value k with
  | zero => exact Nat.zero_le _
  | succ groups ih =>
    unfold putVarintFrom
    split
    · exact positive
    · rename_i large
      obtain ⟨k, rfl⟩ := Nat.exists_eq_succ_of_ne_zero positive.ne'
      rw [Nat.mul_succ, pow_add] at fits
      have more : 0 < k := by
        rcases Nat.eq_zero_or_pos k with rfl | more
        · norm_num at fits
          omega
        · exact more
      have rest := @ih (value / 0x80) k more (by omega)
      rw [length_cons]
      omega

theorem lt_of_length_putVarintFrom {groups value : Nat} (some : 0 < groups) (fits : value < 2 ^ (7 * groups)) :
    value < 2 ^ (7 * (putVarintFrom groups value).length) := by
  induction groups generalizing value with
  | zero => omega
  | succ groups ih =>
    unfold putVarintFrom
    split
    · rename_i small
      simpa using small
    · rename_i large
      rw [Nat.mul_succ, pow_add] at fits
      have more : 0 < groups := by
        rcases Nat.eq_zero_or_pos groups with rfl | more
        · norm_num at fits
          omega
        · exact more
      have rest := @ih (value / 0x80) more (by omega)
      rw [length_cons, Nat.mul_succ, pow_add]
      omega

theorem length_putVarint_add {a b sum : Nat} (first : a < 2 ^ 64) (second : b < 2 ^ 64) (small : sum ≤ a + b + 1) :
    (putVarint sum).length ≤ (putVarint a).length + (putVarint b).length := by
  have low := @lt_of_length_putVarintFrom 10 a (by decide) (first.trans (by decide))
  have high := @lt_of_length_putVarintFrom 10 b (by decide) (second.trans (by decide))
  have some := length_putVarint_pos a
  have more := length_putVarint_pos b
  refine length_putVarintFrom_le 10 (by omega) ?_
  have two {n : Nat} (positive : 0 < n) : 2 ≤ 2 ^ (7 * n) :=
    (by decide : 2 ≤ 2 ^ 7).trans (Nat.pow_le_pow_right (by decide) (by omega))
  have product : 2 ^ (7 * (putVarint a).length) + 2 ^ (7 * (putVarint b).length) ≤
      2 ^ (7 * (putVarint a).length) * 2 ^ (7 * (putVarint b).length) := Nat.add_le_mul (two some) (two more)
  rw [← pow_add, ← Nat.mul_add] at product
  unfold putVarint at *
  omega

theorem zigzag_wrapI64_le (n : Int) : zigzag (wrapI64 n) ≤ zigzag n := by
  by_cases inside : InI64 n
  · rw [wrapI64_of_inI64 inside]
  · have low := zigzag_wrapI64_lt n
    have high : 2 ^ 64 ≤ zigzag n + 1 := by
      unfold InI64 at inside
      unfold zigzag
      split <;> omega
    omega

theorem zigzag_wrapI64_add (a b : Int) : zigzag (wrapI64 (a + b)) ≤ zigzag (wrapI64 a) + zigzag (wrapI64 b) + 1 := by
  have same : wrapI64 (a + b) = wrapI64 (wrapI64 a + wrapI64 b) := by
    unfold wrapI64
    rw [Int.bmod_add_bmod, Int.add_bmod_bmod]
  have sum : zigzag (wrapI64 a + wrapI64 b) ≤ zigzag (wrapI64 a) + zigzag (wrapI64 b) + 1 := by
    unfold zigzag
    split <;> split <;> split <;> omega
  exact same ▸ (zigzag_wrapI64_le _).trans sum

theorem length_putDeltas_tail (previous value : Int) (values : List Int) :
    (putDeltas previous values).length ≤ (putDeltas previous (value :: values)).length := by
  cases values with
  | nil => simp [putDeltas]
  | cons next values =>
    have step := length_putVarint_add (zigzag_wrapI64_lt (value - previous)) (zigzag_wrapI64_lt (next - value))
      (zigzag_wrapI64_add (value - previous) (next - value))
    rw [show value - previous + (next - value) = next - previous by omega] at step
    simp only [putDeltas, length_append]
    omega

theorem length_putDeltas_drop (previous : Int) (count : Nat) (values : List Int) :
    (putDeltas previous (values.drop count)).length ≤ (putDeltas previous values).length := by
  induction values generalizing count with
  | nil => simp
  | cons value values ih =>
    cases count with
    | zero => exact le_refl _
    | succ count => exact (ih count).trans (length_putDeltas_tail previous value values)

theorem length_putDeltas_take (previous : Int) (count : Nat) (values : List Int) :
    (putDeltas previous (values.take count)).length ≤ (putDeltas previous values).length := by
  induction values generalizing previous count with
  | nil => simp
  | cons value values ih =>
    cases count with
    | zero => exact Nat.zero_le _
    | succ count =>
      have rest := ih value count
      simp only [take_succ_cons, putDeltas, length_append]
      omega

theorem length_flatMap_le {α : Type} {f : α → Bytes} {xs ys : List α} (part : xs.Sublist ys) :
    (xs.flatMap f).length ≤ (ys.flatMap f).length :=
  (part.flatMap f).length_le

theorem stretch_sublist {α : Type} (values : List α) (start last : Nat) :
    ((values.take last).drop start).Sublist values :=
  (drop_sublist _ _).trans (take_sublist _ _)

theorem length_putRegion_le {xs ys : List Bytes} (part : xs.Sublist ys) :
    (putRegion xs).length ≤ (putRegion ys).length := by
  have lengths := @length_flatMap_le _ (fun bytes => putVarint bytes.length) _ _ part
  have bodies := @length_flatMap_le _ id _ _ part
  simp only [flatMap_id] at bodies
  simp only [putRegion, length_append]
  omega

theorem length_encodeValues_slice (column : Column) (start last : Nat) :
    (encodeValues (column.slice start last)).length ≤ (encodeValues column).length := by
  have deltas (values : List Int) : (putDeltas 0 ((values.take last).drop start)).length ≤ (putDeltas 0 values).length :=
    (length_putDeltas_drop 0 start _).trans (length_putDeltas_take 0 last values)
  cases column with
  | timestamps values => exact deltas values
  | integers values => exact deltas values
  | unsigned values => exact length_flatMap_le (stretch_sublist values start last)
  | floats values => exact length_flatMap_le (stretch_sublist values start last)
  | booleans values =>
    have fewer := (stretch_sublist values start last).length_le
    simp only [Column.slice, encodeValues, length_packBits]
    omega
  | identifiers values =>
    have heads := deltas (values.map headOf)
    have tails := @length_flatMap_le _ (fun id : Id => id.bytes.drop 8) _ _ (stretch_sublist values start last)
    rw [← map_take, ← map_drop] at heads
    simp only [Column.slice, encodeValues, length_append]
    omega
  | text values => exact length_putRegion_le ((stretch_sublist values start last).map _)
  | bytes values => exact length_putRegion_le ((stretch_sublist values start last).map _)

section
variable {crates : Crates} {column : Column}

theorem readsBack_of_small (restores : crates.Restores) (typed : column.Typed) (shape : column.isRaw = false)
    (filled : 0 < column.length) (small : (encodeValues column).length ≤ maxUncompressedPageBytes) (target : Nat) :
    PagesReadBack crates column target := by
  refine (pages_read_back_iff restores typed filled target).mpr ⟨shape, ?_⟩
  unfold ClosesSmall
  split
  · exact small
  · exact fun start rows _ _ => (length_encodeValues_slice column start (start + rows)).trans small

end

end TallyOwl.SegmentFormat
