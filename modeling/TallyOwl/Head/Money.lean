import Mathlib.Algebra.BigOperators.Ring.Finset
import Mathlib.Algebra.Order.Ring.Abs
import TallyOwl.Head.Decimal
import TallyOwl.Lib.Apportion

/-! Exact money, and how it is divided (`money.rs`). Floats only make whole weights; the division is integer
arithmetic. A float that is finite and not negative orders as its bits do. -/
open List

namespace TallyOwl.Money
open Lib TallyOwl.Expr

/-- How many digits past the value's own scale a division carries. -/
def guardDigits : Nat := 6

def maxScale : Nat := 18

structure Amount where
  units : Int
  scale : Nat
  deriving DecidableEq

namespace Amount

def atScale (amount : Amount) (scale : Nat) : Option Amount :=
  if scale < amount.scale then none
  else do
    let factor ← checkI128 (10 ^ (scale - amount.scale))
    let units ← checkI128 (amount.units * factor)
    pure ⟨units, scale⟩

/-- The amount at the scale of a division, or at its own where lifting would overflow. -/
def working (amount : Amount) : Amount :=
  (amount.atScale (min ((amount.scale + guardDigits) % 2 ^ 32) maxScale)).getD amount

end Amount

section
variable (floats : Floats) (roundU128 : UInt64 → Nat)

/-- `1e15`, all the precision a weight has. -/
def weightParts : UInt64 := 0x430C6BF526340000

def Positive (w : UInt64) : Prop := 0 < w.toNat ∧ w.toNat < 2047 * 2 ^ 52

instance (w : UInt64) : Decidable (Positive w) := inferInstanceAs (Decidable (_ ∧ _))

def cleaned (weights : List UInt64) : List UInt64 := weights.map fun w => if Positive w then w else 0

/-- The weights as parts of their sum, or all the same where they have none. -/
def shares (weights : List UInt64) : List Nat :=
  let sum := (cleaned weights).foldl floats.add 0
  if Positive sum then (cleaned weights).map fun w => roundU128 (floats.mul (floats.div w sum) weightParts)
  else List.replicate weights.length 1

def whole (weights : List UInt64) : List Nat :=
  if (shares floats roundU128 weights).all (· = 0) then List.replicate weights.length 1
  else shares floats roundU128 weights

end

def satU128 (n : Nat) : Nat := min n (2 ^ 128 - 1)

/-- The order of the places: the larger remainder, then the larger weight, then the earlier place. -/
def before (remainders : List Nat) (cleaned : List UInt64) (a b : Nat) : Bool :=
  (((compare (remainders.getD b 0) (remainders.getD a 0)).then
    (compare (cleaned.getD b 0).toNat (cleaned.getD a 0).toNat)).then (compare a b)).isLE

section
variable (floats : Floats) (roundU128 : UInt64 → Nat)

def handOut (each extra : Nat) (order : List (Nat × Nat)) (parts : List Nat) : List Nat :=
  order.foldl (fun parts x => parts.modify x.1 fun part =>
    satU128 (satU128 (part + each) + if x.2 < extra then 1 else 0)) parts

def splitOf (working : Amount) (weights : List UInt64) : List Amount :=
  if weights = [] then []
  else
    let whole := whole floats roundU128 weights
    let all := whole.sum % 2 ^ 128
    let magnitude := working.units.natAbs
    let sign : Int := if working.units < 0 then -1 else 1
    let quotient := magnitude / all
    let rest := magnitude % all
    let parts := whole.map fun weight => satU128 (satU128 (quotient * weight) + satU128 (rest * weight) / all)
    let remainders := whole.map fun weight => satU128 (rest * weight) % all
    let handedOut := parts.foldl (fun sum part => satU128 (sum + part)) 0
    let left := magnitude - handedOut
    let order := (List.range parts.length).mergeSort (before remainders (cleaned weights))
    let given := handOut (left / order.length) (left % order.length) order.zipIdx parts
    given.map fun (units : Nat) => ⟨min (units : Int) (2 ^ 127 - 1) * sign, working.scale⟩

def split (amount : Amount) (weights : List UInt64) : List Amount :=
  if weights = [] then [] else splitOf floats roundU128 amount.working weights

end

/-- What floats make of weights that a slice can hold: no share is larger than all of them, and together they
stay small. -/
structure Moderate (whole : List Nat) : Prop where
  each : ∀ w ∈ whole, w ≤ 10 ^ 15
  total : whole.sum ≤ 2 ^ 60

/-- An amount is divided by whole weights: the parts add up to it, and each is less than one unit from its share. -/
structure Divides (amount : Amount) (whole : List Nat) (parts : List Amount) : Prop where
  many : parts.length = whole.length
  scale : ∀ part ∈ parts, part.scale = amount.scale ∧ InI128 part.units
  exact : (parts.map Amount.units).sum = amount.units
  near : ∀ (i w : Nat), whole[i]? = some w → ∃ part, parts[i]? = some part ∧
    |part.units * (whole.sum : Int) - amount.units * w| < whole.sum

section
variable {remainders : List Nat} {weights : List UInt64}

theorem isLE_then (r r' w w' a b : Nat) : (((compare r' r).then (compare w' w)).then (compare a b)).isLE = true ↔
    r' < r ∨ (r' = r ∧ (w' < w ∨ (w' = w ∧ a ≤ b))) := by
  simp only [Nat.compare_eq_ite_lt]
  split_ifs <;> simp <;> omega

theorem before_iff {a b : Nat} : before remainders weights a b = true ↔
    remainders.getD b 0 < remainders.getD a 0 ∨ (remainders.getD b 0 = remainders.getD a 0 ∧
      ((weights.getD b 0).toNat < (weights.getD a 0).toNat ∨
        ((weights.getD b 0).toNat = (weights.getD a 0).toNat ∧ a ≤ b))) := isLE_then _ _ _ _ _ _

theorem largest_order : Largest ((List.range remainders.length).mergeSort (before remainders weights)) remainders where
  perm := mergeSort_perm _ _
  sorted := by
    have trans : ∀ a b c, before remainders weights a b → before remainders weights b c →
        before remainders weights a c := by
      intro a b c first second
      rw [before_iff] at first second ⊢
      omega
    have total : ∀ a b, before remainders weights a b || before remainders weights b a := by
      intro a b
      rw [Bool.or_eq_true, before_iff, before_iff]
      omega
    refine (pairwise_mergeSort trans total _).imp fun ordered => ?_
    rw [before_iff] at ordered
    omega

end

theorem satU128_eq {n : Nat} (small : n < 2 ^ 128) : satU128 n = n := by
  rw [satU128]
  omega

theorem foldl_satU128 {parts : List Nat} (first : Nat) (small : first + parts.sum < 2 ^ 128) :
    parts.foldl (fun sum part => satU128 (sum + part)) first = first + parts.sum := by
  induction parts generalizing first with
  | nil => rfl
  | cons part parts ih =>
    rw [sum_cons] at small ⊢
    rw [foldl_cons, satU128_eq (by omega), ih _ (by omega)]
    omega

theorem modify_congr {f g : Nat → Nat} {parts : List Nat} (i : Nat) (same : ∀ part ∈ parts, f part = g part) :
    parts.modify i f = parts.modify i g := by
  refine ext_getElem? fun j => ?_
  rw [getElem?_modify, getElem?_modify]
  cases there : parts[j]? with
  | none => rfl
  | some part =>
    have here := same part (mem_of_getElem? there)
    simp only [Option.map_eq_map, Option.map_some, here]

theorem handOut_eq {extra most : Nat} (order : List Nat) (first : Nat) (parts : List Nat)
    (small : ∀ part ∈ parts, part ≤ most) (room : most + (extra - first) < 2 ^ 128) :
    handOut 0 extra (order.zipIdx first) parts = bump (order.take (extra - first)) parts := by
  induction order generalizing first parts most with
  | nil => simp [handOut, bump]
  | cons i order ih =>
    by_cases given : first < extra
    · -- one unit more, and one less to hand out
      have one : (parts.modify i fun part => satU128 (satU128 (part + 0) + if first < extra then 1 else 0)) =
          parts.modify i (· + 1) := by
        refine modify_congr i fun part inside => ?_
        have held := small part inside
        simp only [if_pos given, Nat.add_zero, satU128_eq (show part < 2 ^ 128 by omega),
          satU128_eq (show part + 1 < 2 ^ 128 by omega)]
      have raised : ∀ part ∈ parts.modify i (· + 1), part ≤ most + 1 := by
        intro part inside
        obtain ⟨j, there⟩ := mem_iff_getElem?.mp inside
        rw [getElem?_modify] at there
        obtain ⟨old, held, rfl⟩ := Option.map_eq_some_iff.mp there
        have low := small old (mem_of_getElem? held)
        split <;> omega
      have rest := ih (first + 1) _ raised (by omega)
      obtain ⟨later, spare⟩ := Nat.exists_eq_succ_of_ne_zero (show extra - first ≠ 0 by omega)
      rw [show extra - (first + 1) = later by omega] at rest
      rw [zipIdx_cons, handOut, foldl_cons, one, spare, take_succ_cons, bump, foldl_cons]
      exact rest
    · have same : (parts.modify i fun part => satU128 (satU128 (part + 0) + if first < extra then 1 else 0)) =
          parts := by
        refine (modify_congr i fun part inside => ?_).trans (modify_id i parts)
        have held := small part inside
        simp only [if_neg given, Nat.add_zero, satU128_eq (show part < 2 ^ 128 by omega), id_eq]
      have rest := ih (first + 1) parts small (by omega)
      rw [show extra - (first + 1) = 0 by omega, take_zero] at rest
      rw [zipIdx_cons, handOut, foldl_cons, same, show extra - first = 0 by omega, take_zero]
      exact rest

section
variable {floats : Floats} {roundU128 : UInt64 → Nat} {weights : List UInt64} {amount : Amount}

theorem length_whole : (whole floats roundU128 weights).length = weights.length := by
  unfold whole
  split
  · exact length_replicate
  · unfold shares
    dsimp only
    split
    · rw [length_map, cleaned, length_map]
    · exact length_replicate

theorem whole_weighty (nonempty : weights ≠ []) : 0 < (whole floats roundU128 weights).sum := by
  unfold whole
  split
  · rw [sum_replicate_nat, Nat.mul_one]
    exact length_pos_iff.mpr nonempty
  · rename_i weighty
    refine Nat.pos_of_ne_zero fun none => weighty (all_eq_true.mpr fun w inside => ?_)
    exact decide_eq_true (sum_eq_zero_iff.mp none w inside)

theorem quotient_rest (m w all : Nat) (positive : 0 < all) :
    m / all * w + m % all * w / all = m * w / all ∧ m % all * w % all = m * w % all := by
  have whole : m * w = m % all * w + all * (m / all * w) := by
    conv_lhs => rw [← Nat.mod_add_div m all, Nat.add_mul, Nat.mul_assoc]
  rw [whole, Nat.add_mul_div_left _ _ positive, Nat.add_mul_mod_self_left]
  exact ⟨Nat.add_comm _ _, rfl⟩

theorem splitOf_eq (nonempty : weights ≠ []) (fits : amount.units.natAbs < 2 ^ 127)
    (moderate : Moderate (whole floats roundU128 weights)) : ∃ order,
      Largest order (remainders amount.units.natAbs (whole floats roundU128 weights)) ∧
      splitOf floats roundU128 amount weights =
        (apportion amount.units.natAbs (whole floats roundU128 weights) order).map fun (units : Nat) =>
          ⟨units * (if amount.units < 0 then -1 else 1), amount.scale⟩ := by
  have weighty := @whole_weighty floats roundU128 weights nonempty
  unfold splitOf
  rw [if_neg nonempty]
  dsimp only
  set whole := whole floats roundU128 weights
  set m := amount.units.natAbs
  obtain ⟨each, total⟩ := moderate
  have all : whole.sum % 2 ^ 128 = whole.sum := Nat.mod_eq_of_lt (by omega)
  -- no product is too large
  have product : ∀ w ∈ whole, satU128 (m % whole.sum * w) = m % whole.sum * w := by
    intro w inside
    refine satU128_eq ?_
    calc m % whole.sum * w ≤ 2 ^ 60 * 10 ^ 15 :=
          Nat.mul_le_mul ((Nat.mod_lt m weighty).le.trans total) (each w inside)
      _ < 2 ^ 128 := by decide
  have share : ∀ w ∈ whole, m * w / whole.sum ≤ m := by
    intro w inside
    exact Nat.div_le_of_le_mul (Nat.mul_comm m _ ▸ Nat.mul_le_mul_left m (le_sum_of_mem inside))
  have parts : (whole.map fun w => satU128 (satU128 (m / whole.sum * w) + satU128 (m % whole.sum * w) / whole.sum)) =
      floors m whole := by
    refine map_congr_left fun w inside => ?_
    have quotient := (quotient_rest m w whole.sum weighty).1
    have low := share w inside
    have first : m / whole.sum * w ≤ m := (Nat.le_add_right _ _).trans (quotient.le.trans low)
    rw [product w inside, satU128_eq (first.trans_lt (fits.trans (by decide))), quotient, satU128_eq (by omega)]
  have rest : (whole.map fun w => satU128 (m % whole.sum * w) % whole.sum) = remainders m whole := by
    refine map_congr_left fun w inside => ?_
    rw [product w inside, (quotient_rest m w whole.sum weighty).2]
  have low := @floors_le m whole weighty
  have less := @left_lt m whole weighty
  have long : (floors m whole).length = (remainders m whole).length := by simp [floors, remainders]
  rw [all, parts, rest, foldl_satU128 0 (by omega), Nat.zero_add, long]
  set order := (List.range (remainders m whole).length).mergeSort (before (remainders m whole) (cleaned weights))
  have largest : Largest order (remainders m whole) := largest_order
  have many : order.length = whole.length := by simpa [remainders] using largest.perm.length_eq
  rw [many, Nat.div_eq_of_lt less, Nat.mod_eq_of_lt less]
  have given := @handOut_eq (m - (floors m whole).sum) m order 0 (floors m whole) (fun part inside => by
    obtain ⟨w, there, rfl⟩ := mem_map.mp inside
    exact share w there) (by omega)
  refine ⟨order, largest, ?_⟩
  rw [given, Nat.sub_zero]
  refine map_congr_left fun units inside => ?_
  have most : units ≤ m := by
    have sum := (apportion_spec weighty largest).2.1
    exact (le_sum_of_mem inside).trans sum.le
  rw [min_eq_left (by omega)]

theorem units_ne_least {units : Int} (k : Nat) (ordinary : units ≠ -2 ^ 127) : units * 10 ^ k ≠ -2 ^ 127 := by
  cases k with
  | zero => simpa using ordinary
  | succ k =>
    intro same
    have five : (5 : Int) ∣ -2 ^ 127 := by
      rw [← same, Int.pow_succ]
      exact Dvd.dvd.mul_left (Dvd.dvd.mul_left (by decide) _) _
    revert five
    decide

theorem working_spec (fits : InI128 amount.units) (ordinary : amount.units ≠ -2 ^ 127) :
    amount.working.units * 10 ^ amount.scale = amount.units * 10 ^ amount.working.scale ∧
      amount.working.units.natAbs < 2 ^ 127 := by
  unfold Amount.working
  cases lifted : amount.atScale (min ((amount.scale + guardDigits) % 2 ^ 32) maxScale) with
  | none =>
    obtain ⟨low, high⟩ := fits
    exact ⟨rfl, by rw [Option.getD_none]; omega⟩
  | some fine =>
    set scale := min ((amount.scale + guardDigits) % 2 ^ 32) maxScale
    unfold Amount.atScale at lifted
    split at lifted
    · cases lifted
    · rename_i finer
      obtain ⟨factor, power, rest⟩ := Option.bind_eq_some_iff.mp lifted
      obtain ⟨units, product, is⟩ := Option.bind_eq_some_iff.mp rest
      cases is
      obtain ⟨-, rfl⟩ := checkI128_eq_some.mp power
      obtain ⟨⟨low, high⟩, rfl⟩ := checkI128_eq_some.mp product
      have least := units_ne_least (scale - amount.scale) ordinary
      refine ⟨?_, by rw [Option.getD_some]; dsimp only; omega⟩
      change amount.units * 10 ^ (scale - amount.scale) * 10 ^ amount.scale = amount.units * 10 ^ scale
      rw [Int.mul_assoc, ← Int.pow_add, Nat.sub_add_cancel (Nat.le_of_not_lt finer)]

theorem natAbs_mul_sign (n : Int) :
    (n.natAbs : Int) * (if n < 0 then -1 else 1) = n ∧ ((if n < 0 then -1 else 1 : Int) = 1 ∨
      (if n < 0 then -1 else 1 : Int) = -1) := by
  split
  · exact ⟨by omega, .inr rfl⟩
  · exact ⟨by omega, .inl rfl⟩

/-- A division between weights loses nothing: the parts are amounts at the working scale, they add up to the amount,
and each is less than one unit of that scale from its share. -/
theorem split_divides (floats : Floats) (roundU128 : UInt64 → Nat) (amount : Amount) (weights : List UInt64)
    (nonempty : weights ≠ []) (fits : InI128 amount.units) (ordinary : amount.units ≠ -2 ^ 127)
    (moderate : Moderate (whole floats roundU128 weights)) :
    amount.working.units * 10 ^ amount.scale = amount.units * 10 ^ amount.working.scale ∧
      (split floats roundU128 amount weights).length = weights.length ∧
        Divides amount.working (whole floats roundU128 weights) (split floats roundU128 amount weights) := by
  obtain ⟨same, small⟩ := working_spec fits ordinary
  obtain ⟨order, largest, parts⟩ := @splitOf_eq floats roundU128 weights amount.working nonempty small moderate
  obtain ⟨many, sum, near⟩ := apportion_spec (whole_weighty nonempty) largest
  rw [split, if_neg nonempty, parts]
  set whole := whole floats roundU128 weights
  set m := amount.working.units.natAbs
  set sign : Int := if amount.working.units < 0 then -1 else 1
  have signed : (m : Int) * sign = amount.working.units := (natAbs_mul_sign _).1
  have one : sign = 1 ∨ sign = -1 := (natAbs_mul_sign _).2
  have long : ((apportion m whole order).map fun (units : Nat) =>
      (⟨units * sign, amount.working.scale⟩ : Amount)).length = whole.length := by rw [List.length_map, many]
  refine ⟨same, long.trans length_whole, long, fun part inside => ?_, ?_, fun i w there => ?_⟩
  · obtain ⟨units, given, rfl⟩ := List.mem_map.mp inside
    have most : units ≤ m := (List.le_sum_of_mem given).trans sum.le
    refine ⟨rfl, ?_⟩
    change InI128 ((units : Int) * sign)
    rcases one with one | one <;> rw [one] <;> constructor <;> omega
  · rw [List.map_map, ← signed]
    have cast : ((apportion m whole order).map fun (units : Nat) => (units : Int)).sum = m :=
      (Nat.cast_list_sum _).symm.trans (congrArg Nat.cast sum)
    rw [← cast, ← List.sum_map_mul_right]
    rfl
  · obtain ⟨part, given, low, high⟩ := near i w there
    refine ⟨⟨part * sign, amount.working.scale⟩, by rw [List.getElem?_map, given]; rfl, ?_⟩
    have distance : (part : Int) * sign * whole.sum - amount.working.units * w =
        sign * (part * whole.sum - m * w) := by
      rw [← signed]
      ring
    have bound : |(part : Int) * whole.sum - m * w| < whole.sum := by
      have low' : (m : Int) * w < (part + 1) * whole.sum := by exact_mod_cast low
      have high' : (part : Int) * whole.sum < m * w + whole.sum := by exact_mod_cast high
      rw [abs_lt]
      constructor <;> linarith
    rw [distance, abs_mul]
    rcases one with one | one <;> rw [one] <;> simpa using bound

end

/-! Two equal weights. Their floats are those of one, of two, of a half and of half the parts. -/

def one : UInt64 := 0x3FF0000000000000

def two : UInt64 := 0x4000000000000000

def half : UInt64 := 0x3FE0000000000000

def halfParts : UInt64 := 0x42FC6BF526340000

def halves : Floats :=
  { machineFloats with
    add := fun a b => if a = 0 then b else if a = one ∧ b = one then two else a
    div := fun a b => if a = one ∧ b = two then half else 0
    mul := fun a b => if a = half ∧ b = weightParts then halfParts else 0 }

def roundHalves (bits : UInt64) : Nat := if bits = halfParts then 5 * 10 ^ 14 else 0

def price : Amount := ⟨1999, 2⟩

theorem whole_halves : whole halves roundHalves [one, one] = [5 * 10 ^ 14, 5 * 10 ^ 14] := by decide +kernel

theorem moderate_halves : Moderate (whole halves roundHalves [one, one]) := by
  rw [whole_halves]
  exact ⟨by decide, by decide⟩

theorem split_divides_price : price.working = ⟨1999000000, 8⟩ ∧
    Divides price.working [5 * 10 ^ 14, 5 * 10 ^ 14] (split halves roundHalves price [one, one]) := by
  have divided := split_divides halves roundHalves price [one, one] (by decide) (by decide) (by decide) moderate_halves
  rw [whole_halves] at divided
  exact ⟨by decide, divided.2.2⟩

theorem scale_not_kept : ¬ ∀ (floats : Floats) (roundU128 : UInt64 → Nat) (amount : Amount) (weights : List UInt64),
    weights ≠ [] → InI128 amount.units → Moderate (whole floats roundU128 weights) →
      Divides amount (whole floats roundU128 weights) (split floats roundU128 amount weights) := by
  intro all
  have divides := all halves roundHalves price [one, one] (by decide) (by decide) moderate_halves
  obtain ⟨part, there, -⟩ := divides.near 0 (5 * 10 ^ 14) (by rw [whole_halves]; rfl)
  have inside := List.mem_of_getElem? there
  have coarse := (divides.scale part inside).1
  rw [split, if_neg (by decide), splitOf, if_neg (by decide)] at inside
  obtain ⟨units, -, rfl⟩ := List.mem_map.mp inside
  have fine : price.working.scale ≠ price.scale := by decide
  exact fine coarse

end TallyOwl.Money
