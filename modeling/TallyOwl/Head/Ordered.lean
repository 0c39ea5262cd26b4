import Mathlib.Tactic.Positivity
import TallyOwl.Head.Decimal
import TallyOwl.Head.Divided

/-! The order of numbers (`expr.rs`, `compare`). Digits compare as the numbers they denote, so a comparison with a
decimal in it is exact. Two whole numbers go through floats, and those that share their nearest float compare as
equal. -/
namespace TallyOwl.Expr
open Query List

theorem compare_map {α β : Type} [LinearOrder α] [LinearOrder β] {f : α → β} (grows : StrictMono f) (a b : α) :
    Ord.compare (f a) (f b) = Ord.compare a b := by
  rw [← cmp_eq_compare, grows.cmp_map_eq, cmp_eq_compare]

section
variable {left right digits : List Nat}

def fractionValue (digits : List Nat) : ℚ := digitsValue digits / 10 ^ digits.length

theorem compare_place {width a b x y : Nat} (low : x < width) (low' : y < width) :
    Ord.compare (a * width + x) (b * width + y) = (Ord.compare a b).then (Ord.compare x y) := by
  rcases lt_trichotomy a b with less | rfl | more
  · have step : (a + 1) * width ≤ b * width := Nat.mul_le_mul_right _ less
    rw [Nat.compare_eq_lt.mpr less, Nat.compare_eq_lt.mpr (by rw [Nat.succ_mul] at step; omega)]
    rfl
  · rw [Nat.compare_eq_eq.mpr rfl, Ordering.eq_then]
    rcases lt_trichotomy x y with less | rfl | more
    · rw [Nat.compare_eq_lt.mpr less, Nat.compare_eq_lt.mpr (by omega)]
    · rw [Nat.compare_eq_eq.mpr rfl, Nat.compare_eq_eq.mpr rfl]
    · rw [Nat.compare_eq_gt.mpr more, Nat.compare_eq_gt.mpr (by omega)]
  · have step : (b + 1) * width ≤ a * width := Nat.mul_le_mul_right _ more
    rw [Nat.compare_eq_gt.mpr more, Nat.compare_eq_gt.mpr (by rw [Nat.succ_mul] at step; omega)]
    rfl

theorem compare_point {a b : Nat} {x y : ℚ} (low : 0 ≤ x ∧ x < 1) (low' : 0 ≤ y ∧ y < 1) :
    Ord.compare (a + x) (b + y) = (Ord.compare a b).then (Ord.compare x y) := by
  rcases lt_trichotomy a b with less | rfl | more
  · have step : (a : ℚ) + 1 ≤ b := by exact_mod_cast less
    rw [Nat.compare_eq_lt.mpr less, compare_lt_iff_lt.mpr (by linarith)]
    rfl
  · rw [Nat.compare_eq_eq.mpr rfl, Ordering.eq_then]
    rcases lt_trichotomy x y with less | rfl | more
    · rw [compare_lt_iff_lt.mpr less, compare_lt_iff_lt.mpr (by linarith)]
    · rw [compare_eq_iff_eq.mpr rfl, compare_eq_iff_eq.mpr rfl]
    · rw [compare_gt_iff_gt.mpr more, compare_gt_iff_gt.mpr (by linarith)]
  · have step : (b : ℚ) + 1 ≤ a := by exact_mod_cast more
    rw [Nat.compare_eq_gt.mpr more, compare_gt_iff_gt.mpr (by linarith)]
    rfl

theorem digitsValue_trimLeading (digits : List Nat) : digitsValue (trimLeading digits) = digitsValue digits := by
  induction digits with
  | nil => rfl
  | cons d digits ih =>
    by_cases zero : d = 0
    · rw [trimLeading, dropWhile_cons_of_pos (by simpa using zero), digitsValue_cons, zero, Nat.zero_mul,
        Nat.zero_add]
      exact ih
    · rw [trimLeading, dropWhile_cons_of_neg (by simpa using zero)]

theorem trimLeading_low (digits : List Nat) : trimLeading digits = [] ∨
    10 ^ ((trimLeading digits).length - 1) ≤ digitsValue (trimLeading digits) := by
  cases trimmed : trimLeading digits with
  | nil => exact .inl rfl
  | cons d rest =>
    have first : d ≠ 0 := by
      have same : digits.dropWhile (fun d => decide (d = 0)) = d :: rest := trimmed
      have head := @head_dropWhile_not _ (fun d => decide (d = 0)) digits (by simp [same])
      simpa [same] using head
    refine .inr ?_
    rw [digitsValue_cons, length_cons, Nat.add_sub_cancel]
    exact (Nat.le_mul_of_pos_left _ (Nat.pos_of_ne_zero first)).trans (Nat.le_add_right _ _)

theorem compare_digits (small : ∀ d ∈ left, d < 10) (small' : ∀ d ∈ right, d < 10) (same : left.length = right.length) :
    Ord.compare left right = Ord.compare (digitsValue left) (digitsValue right) := by
  induction left generalizing right with
  | nil =>
    obtain rfl := eq_nil_of_length_eq_zero same.symm
    rfl
  | cons a left ih =>
    cases right with
    | nil => cases same
    | cons b right =>
      obtain ⟨-, small⟩ := forall_mem_cons.mp small
      obtain ⟨-, small'⟩ := forall_mem_cons.mp small'
      have same : left.length = right.length := Nat.succ.inj same
      have low := digitsValue_lt small'
      rw [← same] at low
      rw [List.compare_cons_cons, ih small small' same, digitsValue_cons, digitsValue_cons, ← same,
        compare_place (digitsValue_lt small) low]

theorem fractionValue_cons (d : Nat) (digits : List Nat) :
    fractionValue (d :: digits) = (d + fractionValue digits) / 10 := by
  rw [fractionValue, digitsValue_cons, length_cons, fractionValue, pow_succ]
  push_cast
  field_simp

theorem fractionValue_bounds (small : ∀ d ∈ digits, d < 10) : 0 ≤ fractionValue digits ∧ fractionValue digits < 1 := by
  have below : (digitsValue digits : ℚ) < 10 ^ digits.length := by exact_mod_cast digitsValue_lt small
  refine ⟨by unfold fractionValue; positivity, ?_⟩
  rw [fractionValue, div_lt_one (by positivity)]
  exact below

theorem compare_tenth (x y : ℚ) : Ord.compare (x / 10) (y / 10) = Ord.compare x y :=
  compare_map (fun _ _ less => div_lt_div_of_pos_right less (by norm_num)) x y

theorem fractionValue_zero (digits : List Nat) : fractionValue digits = 0 ↔ digits.all (· = 0) = true := by
  induction digits with
  | nil => simp [fractionValue]
  | cons d digits ih =>
    have positive : 0 ≤ fractionValue digits := by unfold fractionValue; positivity
    have high : (0 : ℚ) ≤ d := Nat.cast_nonneg d
    rw [fractionValue_cons, all_cons, Bool.and_eq_true, ← ih, decide_eq_true_eq]
    constructor
    · intro zero
      have both : (d : ℚ) = 0 := by linarith
      exact ⟨by exact_mod_cast both, by linarith⟩
    · rintro ⟨rfl, zero⟩
      simp [zero]

theorem compareFractions_eq (small : ∀ d ∈ left, d < 10) (small' : ∀ d ∈ right, d < 10) :
    compareFractions left right = Ord.compare (fractionValue left) (fractionValue right) := by
  induction left generalizing right with
  | nil =>
    have nothing : fractionValue [] = 0 := by simp [fractionValue]
    rw [compareFractions, nothing]
    split
    · rename_i zeros
      rw [(fractionValue_zero right).mpr zeros, compare_eq_iff_eq.mpr rfl]
    · rename_i counted
      have different : fractionValue right ≠ 0 := fun zero => counted ((fractionValue_zero right).mp zero)
      rw [compare_lt_iff_lt.mpr (lt_of_le_of_ne (fractionValue_bounds small').1 different.symm)]
  | cons a left ih =>
    obtain ⟨-, small⟩ := forall_mem_cons.mp small
    have parts : fractionValue right = (right.headD 0 + fractionValue right.tail) / 10 := by
      cases right with
      | nil => simp [fractionValue]
      | cons b right => exact fractionValue_cons b right
    have small' : ∀ d ∈ right.tail, d < 10 := fun d inside => small' d (mem_of_mem_tail inside)
    rw [compareFractions, ih small small', fractionValue_cons, parts, compare_tenth,
      compare_point (fractionValue_bounds small) (fractionValue_bounds small')]

def magnitude (whole fraction : List Nat) : ℚ := digitsValue whole + fractionValue fraction

theorem digitsValue_lt_of_shorter {left right : List Nat} (small : ∀ d ∈ left, d < 10)
    (shorter : (trimLeading left).length < (trimLeading right).length) : digitsValue left < digitsValue right := by
  have front : ∀ d ∈ trimLeading left, d < 10 := fun d inside => small d ((dropWhile_sublist _).subset inside)
  rcases trimLeading_low right with none | low
  · rw [none] at shorter
    cases shorter
  · calc digitsValue left = digitsValue (trimLeading left) := (digitsValue_trimLeading left).symm
      _ < 10 ^ (trimLeading left).length := digitsValue_lt front
      _ ≤ 10 ^ ((trimLeading right).length - 1) := Nat.pow_le_pow_right (by decide) (by omega)
      _ ≤ digitsValue (trimLeading right) := low
      _ = digitsValue right := digitsValue_trimLeading right

theorem compare_trimmed (small : ∀ d ∈ left, d < 10) (small' : ∀ d ∈ right, d < 10) :
    (Ord.compare (trimLeading left).length (trimLeading right).length).then
      (Ord.compare (trimLeading left) (trimLeading right)) = Ord.compare (digitsValue left) (digitsValue right) := by
  have front : ∀ d ∈ trimLeading left, d < 10 := fun d inside => small d ((dropWhile_sublist _).subset inside)
  have front' : ∀ d ∈ trimLeading right, d < 10 := fun d inside => small' d ((dropWhile_sublist _).subset inside)
  rcases lt_trichotomy (trimLeading left).length (trimLeading right).length with less | same | more
  · rw [Nat.compare_eq_lt.mpr less, Nat.compare_eq_lt.mpr (digitsValue_lt_of_shorter small less)]
    rfl
  · rw [Nat.compare_eq_eq.mpr same, Ordering.eq_then, compare_digits front front' same, digitsValue_trimLeading,
      digitsValue_trimLeading]
  · rw [Nat.compare_eq_gt.mpr more, Nat.compare_eq_gt.mpr (digitsValue_lt_of_shorter small' more)]
    rfl

theorem compareDigits_eq {left left' right right' : List Nat} (small : ∀ d ∈ left ++ left', d < 10)
    (small' : ∀ d ∈ right ++ right', d < 10) :
    compareDigits left left' right right' = Ord.compare (magnitude left left') (magnitude right right') := by
  obtain ⟨front, back⟩ := forall_mem_append.mp small
  obtain ⟨front', back'⟩ := forall_mem_append.mp small'
  rw [compareDigits, magnitude, magnitude, compare_point (fractionValue_bounds back) (fractionValue_bounds back'),
    ← compare_trimmed front front', compareFractions_eq back back', Ordering.then_assoc]

end

theorem denoted_eq (negative : Bool) (whole fraction : List Nat) :
    denoted (negative, whole, fraction) = if negative then -magnitude whole fraction else magnitude whole fraction := by
  have size : (digitsValue (whole ++ fraction) : ℚ) / 10 ^ fraction.length = magnitude whole fraction := by
    rw [digitsValue_append, magnitude, fractionValue]
    push_cast
    field_simp
  rw [denoted, mul_div_assoc, size]
  cases negative <;> simp

theorem splitDecimal_small {text : String} {negative : Bool} {whole fraction : List Nat}
    (split : splitDecimal text = some (negative, whole, fraction)) : ∀ d ∈ whole ++ fraction, d < 10 := by
  simp only [splitDecimal, Option.bind_eq_bind, Option.bind_eq_some_iff] at split
  obtain ⟨whole', read, fraction', read', same⟩ := split
  split at same
  · cases same
  · cases same
    exact forall_mem_append.mpr ⟨small_of_mapM read, small_of_mapM read'⟩

theorem magnitude_nonneg (whole fraction : List Nat) : 0 ≤ magnitude whole fraction := by
  unfold magnitude fractionValue
  positivity

theorem magnitude_zero (whole fraction : List Nat) :
    magnitude whole fraction = 0 ↔ (whole ++ fraction).all (· = 0) = true := by
  have size := fractionValue_zero (whole ++ fraction)
  rw [← size, fractionValue, div_eq_zero_iff, or_iff_left (by positivity), magnitude, fractionValue]
  rw [digitsValue_append]
  push_cast
  constructor
  · intro zero
    field_simp at zero
    linarith
  · intro zero
    field_simp
    linarith

theorem compare_neg (x y : ℚ) : Ord.compare (-x) (-y) = (Ord.compare x y).swap := by
  rw [← ord_swap y x, ← cmp_eq_compare, ← cmp_eq_compare]
  exact StrictAnti.cmp_map_eq (fun _ _ less => neg_lt_neg less) x y

theorem decimalCompare_eq {left right : String} {x y : ℚ} (read : decimalValue left = some x)
    (read' : decimalValue right = some y) : decimalCompare left right = some (Ord.compare x y) := by
  obtain ⟨⟨negative, whole, fraction⟩, split, rfl⟩ := Option.map_eq_some_iff.mp read
  obtain ⟨⟨negative', whole', fraction'⟩, split', rfl⟩ := Option.map_eq_some_iff.mp read'
  have digits := compareDigits_eq (splitDecimal_small split) (splitDecimal_small split')
  have positive := magnitude_nonneg whole fraction
  have positive' := magnitude_nonneg whole' fraction'
  rw [decimalCompare, split, split', denoted_eq, denoted_eq]
  simp only [Option.bind_eq_bind, Option.bind_some]
  by_cases same : negative = negative'
  · subst same
    rw [if_neg (by simp), digits]
    cases negative with
    | true => rw [if_pos rfl, if_pos rfl, if_pos rfl, compare_neg]
    | false => rfl
  · rw [if_pos same]
    split
    · rename_i zeros
      rw [Bool.and_eq_true, ← magnitude_zero, ← magnitude_zero] at zeros
      rw [zeros.1, zeros.2]
      simp
    · rename_i counted
      rw [Bool.and_eq_true, ← magnitude_zero, ← magnitude_zero] at counted
      -- one of the two sizes counts, so the signs decide
      have apart : 0 < magnitude whole fraction + magnitude whole' fraction' := by
        refine lt_of_le_of_ne (add_nonneg positive positive') fun zero => counted ?_
        exact (add_eq_zero_iff_of_nonneg positive positive').mp zero.symm
      cases negative with
      | true =>
        obtain rfl : negative' = false := by simpa using same
        rw [if_pos rfl, if_pos rfl, if_neg (by decide), compare_lt_iff_lt.mpr (by linarith)]
      | false =>
        obtain rfl : negative' = true := by simpa using same
        rw [if_neg (by decide), if_neg (by decide), if_pos rfl, compare_gt_iff_gt.mpr (by linarith)]

theorem decimalValue_int (n : Int) : decimalValue (toString n) = some (n : ℚ) := by
  have text := decimalValue_render n 0
  rw [pow_zero, div_one] at text
  exact text

section
variable {n m : Nat} {a b : Int}

/-- A number at a coarser step, to the nearest multiple, ties to the even one. -/
def roundTo (step n : Nat) : Nat :=
  let kept := n / step
  let lost := n % step
  (if 2 * lost < step ∨ 2 * lost = step ∧ kept % 2 = 0 then kept else kept + 1) * step

def nearestSize (n : Nat) : Nat := roundTo (2 ^ (n.log2 - 52)) n

def nearest (n : Int) : Int := n.sign * nearestSize n.natAbs

theorem roundTo_mono {step : Nat} (le : n ≤ m) : roundTo step n ≤ roundTo step m := by
  unfold roundTo
  dsimp only
  refine Nat.mul_le_mul_right _ ?_
  have kept : n / step ≤ m / step := Nat.div_le_div_right le
  rcases Nat.lt_or_eq_of_le kept with less | same
  · split <;> split <;> omega
  · have lost : n % step ≤ m % step := by
      have left := Nat.div_add_mod n step
      have right := Nat.div_add_mod m step
      rw [same] at left
      omega
    rw [same]
    split <;> split <;> omega

theorem nearestSize_small (small : n ≤ 2 ^ 53) : nearestSize n = n := by
  rcases Nat.lt_or_eq_of_le small with less | rfl
  · have short : n.log2 - 52 = 0 := by
      by_cases zero : n = 0
      · subst zero
        rfl
      · have := (Nat.log2_lt zero).mpr less
        omega
    rw [nearestSize, short, pow_zero, roundTo, Nat.mod_one, Nat.div_one, if_pos (by simp), Nat.mul_one]
  · decide +kernel

theorem nearestSize_bounds (large : 53 ≤ n.log2) : 2 ^ n.log2 ≤ nearestSize n ∧ nearestSize n ≤ 2 ^ (n.log2 + 1) := by
  have nonzero : n ≠ 0 := by
    rintro rfl
    cases large
  have whole : 2 ^ n.log2 = 2 ^ 52 * 2 ^ (n.log2 - 52) := by
    rw [← pow_add]
    congr 1
    omega
  have whole' : 2 ^ (n.log2 + 1) = 2 ^ 53 * 2 ^ (n.log2 - 52) := by
    rw [← pow_add]
    congr 1
    omega
  have low : 2 ^ 52 ≤ n / 2 ^ (n.log2 - 52) := by
    rw [Nat.le_div_iff_mul_le (by positivity), ← whole]
    exact Nat.log2_self_le nonzero
  have high : n / 2 ^ (n.log2 - 52) < 2 ^ 53 := by
    rw [Nat.div_lt_iff_lt_mul (by positivity), ← whole']
    exact Nat.lt_log2_self
  rw [nearestSize, roundTo, whole, whole']
  constructor
  · refine Nat.mul_le_mul_right _ ?_
    split <;> omega
  · refine Nat.mul_le_mul_right _ ?_
    split <;> omega

theorem nearestSize_mono (le : n ≤ m) : nearestSize n ≤ nearestSize m := by
  rcases Nat.lt_or_ge m.log2 53 with small | large
  · have fits : m < 2 ^ 53 := by
      by_cases zero : m = 0
      · subst zero
        decide
      · exact (Nat.log2_lt zero).mp small
    rw [nearestSize_small fits.le, nearestSize_small (le.trans fits.le)]
    exact le
  · rcases lt_trichotomy n.log2 m.log2 with less | same | more
    · have power : 2 ^ (n.log2 + 1) ≤ 2 ^ m.log2 := Nat.pow_le_pow_right (by decide) less
      refine le_trans ?_ (nearestSize_bounds large).1
      rcases Nat.lt_or_ge n.log2 53 with small | large'
      · have below : n < 2 ^ (n.log2 + 1) := Nat.lt_log2_self
        have fits : 2 ^ (n.log2 + 1) ≤ 2 ^ 53 := Nat.pow_le_pow_right (by decide) small
        rw [nearestSize_small (by omega)]
        omega
      · exact (nearestSize_bounds large').2.trans power
    · rw [nearestSize, nearestSize, same]
      exact roundTo_mono le
    · have below : m < 2 ^ (m.log2 + 1) := Nat.lt_log2_self
      have power : 2 ^ (m.log2 + 1) ≤ 2 ^ n.log2 := Nat.pow_le_pow_right (by decide) more
      have above : 2 ^ n.log2 ≤ n := Nat.log2_self_le fun zero => by
        subst zero
        cases more
      omega

theorem nearest_natCast (n : Nat) : nearest n = nearestSize n := by
  rcases Nat.eq_zero_or_pos n with rfl | positive
  · decide +kernel
  · rw [nearest, Int.sign_eq_one_of_pos (by omega), one_mul, Int.natAbs_natCast]

theorem nearest_neg (a : Int) : nearest (-a) = -nearest a := by
  rw [nearest, nearest, Int.sign_neg, Int.natAbs_neg, neg_mul]

theorem nearest_mono (le : a ≤ b) : nearest a ≤ nearest b := by
  obtain ⟨n, rfl | rfl⟩ := Int.eq_nat_or_neg a <;> obtain ⟨m, rfl | rfl⟩ := Int.eq_nat_or_neg b
  · rw [nearest_natCast, nearest_natCast]
    exact Int.ofNat_le.mpr (nearestSize_mono (Int.ofNat_le.mp le))
  · have zero : n = 0 ∧ m = 0 := by omega
    rw [zero.1, zero.2]
    rfl
  · rw [nearest_neg, nearest_natCast, nearest_natCast]
    omega
  · rw [nearest_neg, nearest_neg, nearest_natCast, nearest_natCast, neg_le_neg_iff]
    exact Int.ofNat_le.mpr (nearestSize_mono (by omega))

theorem compare_nearest : Ord.compare (nearest a) (nearest b) = Ord.compare a b ↔ a = b ∨ nearest a ≠ nearest b := by
  rcases lt_trichotomy a b with less | rfl | more
  · rw [compare_lt_iff_lt.mpr less, compare_lt_iff_lt]
    have order := nearest_mono less.le
    constructor
    · exact fun is => .inr is.ne
    · rintro (rfl | apart)
      · exact (lt_irrefl _ less).elim
      · exact lt_of_le_of_ne order apart
  · simp
  · rw [compare_gt_iff_gt.mpr more, compare_gt_iff_gt]
    have order := nearest_mono more.le
    constructor
    · exact fun is => .inr is.ne'
    · rintro (rfl | apart)
      · exact (lt_irrefl _ more).elim
      · exact lt_of_le_of_ne order apart.symm

end

section
variable {floats : Floats} {v w : PropertyValue} {x y : ℚ}

def wholeOf : PropertyValue → Option Int
  | .integer v => some v
  | .unsigned v => some v
  | _ => none

/-- What `as f64` and `partial_cmp` do on two whole numbers: each goes to its nearest float, and the floats are in
the order of the numbers they hold. -/
def Rounds (floats : Floats) (v w : PropertyValue) : Prop :=
  ∀ a b, wholeOf v = some a → wholeOf w = some b →
    ((asFloat floats v).bind fun left => (asFloat floats w).bind fun right => floats.partialCmp left right) =
      some (Ord.compare (nearest a) (nearest b))

/-- Two numbers that floats tell apart: one of them is a decimal, or they are equal, or they round to different
floats. -/
def Apart (v w : PropertyValue) : Prop :=
  ∀ a b, wholeOf v = some a → wholeOf w = some b → a = b ∨ nearest a ≠ nearest b

theorem compare_cast (a b : Int) : Ord.compare (a : ℚ) (b : ℚ) = Ord.compare a b :=
  compare_map Int.cast_strictMono a b

theorem compare_wholes {a b : Int} (rounds : Rounds floats v w) (left : wholeOf v = some a)
    (right : wholeOf w = some b) : compare floats v w = some (Ord.compare (nearest a) (nearest b)) := by
  have same : compare floats v w =
      (asFloat floats v).bind fun left => (asFloat floats w).bind fun right => floats.partialCmp left right := by
    cases v <;> cases left <;> cases w <;> cases right <;> rfl
  rw [same, rounds a b left right]

theorem compare_decimal {left right : String} (first : decimalValue left = some x) (second : decimalValue right = some y) :
    compare floats (.decimal left) (.decimal right) = some (Ord.compare x y) := decimalCompare_eq first second

theorem whole_or_decimal (number : numberOf v = some x) :
    (∃ a, wholeOf v = some a ∧ x = a ∧ pipeDecimal v = some (toString a)) ∨
      ∃ text, v = .decimal text ∧ decimalValue text = some x := by
  cases v with
  | integer a => exact .inl ⟨a, rfl, (Option.some.inj number).symm, rfl⟩
  | unsigned a => exact .inl ⟨a, rfl, by simpa [numberOf] using number.symm, rfl⟩
  | decimal text => exact .inr ⟨text, rfl, number⟩
  | _ => cases number

theorem compare_apart (rounds : Rounds floats v w) (left : numberOf v = some x) (right : numberOf w = some y) :
    (compare floats v w = some (Ord.compare x y) ↔ Apart v w) ∧ (compare floats v w).isSome := by
  rcases whole_or_decimal left with ⟨a, whole, rfl, text⟩ | ⟨text, rfl, value⟩
  · rcases whole_or_decimal right with ⟨b, whole', rfl, text'⟩ | ⟨text', rfl, value'⟩
    · rw [compare_wholes rounds whole whole', compare_cast, Option.some.injEq, compare_nearest]
      refine ⟨⟨fun is c d first second => ?_, fun apart => apart a b whole whole'⟩, rfl⟩
      obtain rfl := Option.some.inj (whole.symm.trans first)
      obtain rfl := Option.some.inj (whole'.symm.trans second)
      exact is
    · have both : compare floats v (.decimal text') = some (Ord.compare (a : ℚ) y) := by
        have piped : compare floats v (.decimal text') = (pipeDecimal v).bind fun a => decimalCompare a text' := by
          cases v <;> cases whole <;> rfl
        rw [piped, text, Option.bind_some, decimalCompare_eq (decimalValue_int a) value']
      rw [both]
      exact ⟨iff_of_true rfl fun _ _ _ is => (by cases is), rfl⟩
  · rcases whole_or_decimal right with ⟨b, whole', rfl, text'⟩ | ⟨text', rfl, value'⟩
    · have both : compare floats (.decimal text) w = some (Ord.compare x (b : ℚ)) := by
        have piped : compare floats (.decimal text) w = (pipeDecimal w).bind fun b => decimalCompare text b := by
          cases w <;> cases whole' <;> rfl
        rw [piped, text', Option.bind_some, decimalCompare_eq value (decimalValue_int b)]
      rw [both]
      exact ⟨iff_of_true rfl fun _ _ is => (by cases is), rfl⟩
    · rw [compare_decimal value value']
      exact ⟨iff_of_true rfl fun _ _ is => (by cases is), rfl⟩

/-- How two numbers compare: as the rationals they denote where floats tell them apart, always, the other way round
when they are given the other way round, and in line with every third number that is told apart from both. -/
structure ComparesAs (floats : Floats) (v w : PropertyValue) (x y : ℚ) : Prop where
  exact_iff : compare floats v w = some (Ord.compare x y) ↔ Apart v w
  total : (compare floats v w).isSome
  reversed : compare floats w v = (compare floats v w).map Ordering.swap
  transitive : ∀ u z, numberOf u = some z → Rounds floats w u → Rounds floats v u → Apart v w → Apart w u → Apart v u →
    compare floats v w ≠ some .gt → compare floats w u ≠ some .gt → compare floats v u ≠ some .gt

theorem compare_exact_iff (rounds : Rounds floats v w) (left : numberOf v = some x) (right : numberOf w = some y) :
    ComparesAs floats v w x y where
  exact_iff := (compare_apart rounds left right).1
  total := (compare_apart rounds left right).2
  reversed := compare_swap floats v w
  transitive u z third rounds' rounds'' apart apart' apart'' le le' := by
    rw [(compare_apart rounds left right).1.mpr apart, Ne, Option.some.injEq, compare_gt_iff_gt, not_lt] at le
    rw [(compare_apart rounds' right third).1.mpr apart', Ne, Option.some.injEq, compare_gt_iff_gt, not_lt] at le'
    rw [(compare_apart rounds'' left third).1.mpr apart'', Ne, Option.some.injEq, compare_gt_iff_gt, not_lt]
    exact le.trans le'

theorem compare_exact_iff_halfway :
    ComparesAs machineFloats (.integer 9007199254740993) (.unsigned 9007199254740994) 9007199254740993
      9007199254740994 :=
  compare_exact_iff (fun a b left right => by
    cases left
    cases right
    decide +kernel) (by simp [numberOf]) (by simp [numberOf])

/-- The number above 2^53 is taken for 2^53. -/
theorem whole_numbers_merged : ¬ ∀ (v w : PropertyValue) (x y : ℚ), numberOf v = some x → numberOf w = some y →
    compare machineFloats v w = some (Ord.compare x y) := by
  intro all
  have merged : compare machineFloats (.integer 9007199254740992) (.integer 9007199254740993) = some .eq := by
    decide +kernel
  have exact := all (.integer 9007199254740992) (.integer 9007199254740993) 9007199254740992 9007199254740993
    (by simp [numberOf]) (by simp [numberOf])
  rw [merged, compare_lt_iff_lt.mpr (by norm_num)] at exact
  cases exact

end

end TallyOwl.Expr
