import Mathlib.Tactic.LinearCombination
import TallyOwl.Head.Decimal
import TallyOwl.Head.Watched

/-! The arithmetic of exact decimals against the numbers they denote (`expr.rs`). The digits behind a point are
counted in 32 bits, so a text with more of them than that counts is taken for a larger number. -/
namespace TallyOwl.Expr
open Lib RowCodec List

def answerOf (op : ArithOp) (x y : ℚ) : ℚ :=
  match op with
  | .add => x + y
  | .sub => x - y
  | .mul => x * y
  | .div => x / y

/-- No answer, or one that denotes the result of the two numbers. -/
def Exact (op : ArithOp) (left right : PropertyValue) (x y : ℚ) : Prop :=
  decimalArithmetic op left right = .unknown ∨ ∃ text,
    decimalArithmetic op left right = .known (.decimal text) ∧ decimalValue text = some (answerOf op x y)

/-- A mantissa, a lift or the result leaves an `i128`. -/
def Overflows (op : ArithOp) (left right : PropertyValue) : Prop :=
  ∀ a b aLifted bLifted, scaled left = some a → scaled right = some b → lift (max a.2 b.2) a = some aLifted →
    lift (max a.2 b.2) b = some bLifted → (resultOf op a b aLifted bLifted).1 = none

/-- The digits behind the points are few enough to be counted, where they matter. -/
def Counted (op : ArithOp) (left right : PropertyValue) (x y : ℚ) : Prop :=
  match op with
  | .add | .sub => ((x = 0 ∨ fractionDigits left < 2 ^ 32) ∧ (y = 0 ∨ fractionDigits right < 2 ^ 32)) ∨
      answerOf op x y = 0
  | .mul | .div => answerOf .mul x y = 0 ∨ fractionDigits left + fractionDigits right < 2 ^ 32

theorem lifted_sum_iff {p r u v : Int} (positive : 0 < p) (large : r = 1 ∨ |v| < r) :
    p * r * (u + v) = r * u + v ↔ ((u = 0 ∨ p = 1) ∧ (v = 0 ∨ p * r = 1)) ∨ r * u + v = 0 := by
  rcases large with rfl | small
  · constructor
    · intro same
      have product : (p - 1) * (u + v) = 0 := by linarith
      rcases mul_eq_zero.mp product with one | zero
      · have one : p = 1 := by omega
        exact .inl ⟨.inr one, .inr (by rw [one]; rfl)⟩
      · exact .inr (by omega)
    · rintro (⟨first, second⟩ | zero)
      · rw [mul_one] at second
        rcases second with rfl | rfl
        · rcases first with rfl | rfl <;> ring
        · ring
      · rw [zero, show u + v = 0 by omega, mul_zero]
  · have above : 0 < r := (abs_nonneg v).trans_lt small
    -- a multiple of `r` this small is zero
    have none (divides : r ∣ v) : v = 0 := Int.eq_zero_of_abs_lt_dvd divides small
    constructor
    · intro same
      have zero := none ⟨p * (u + v) - u, by linarith⟩
      subst zero
      have product : r * ((p - 1) * u) = 0 := by linarith
      rcases mul_eq_zero.mp ((mul_eq_zero.mp product).resolve_left above.ne') with one | zero
      · exact .inl ⟨.inr (by omega), .inl rfl⟩
      · exact .inl ⟨.inl zero, .inl rfl⟩
    · rintro (⟨first, second⟩ | zero)
      · rcases second with rfl | unit
        · rcases first with rfl | rfl <;> ring
        · have one : p = 1 := Int.eq_one_of_mul_eq_one_right positive.le unit
          subst one
          rw [one_mul] at unit ⊢
          subst unit
          ring
      · have rest := none ⟨-u, by linarith⟩
        subst rest
        have left := (mul_eq_zero.mp ((add_zero _).symm.trans zero)).resolve_left above.ne'
        subst left
        ring

theorem value_lifted {width d scale : Nat} {m u : Int} (lifted : u * 10 ^ (d % width) = m * 10 ^ scale) :
    (m : ℚ) / 10 ^ d = u / (10 ^ scale * 10 ^ (width * (d / width))) := by
  have cast : (u : ℚ) * 10 ^ (d % width) = m * 10 ^ scale := by exact_mod_cast lifted
  have split : (10 : ℚ) ^ d = 10 ^ (d % width) * 10 ^ (width * (d / width)) := by
    rw [← pow_add, Nat.mod_add_div]
  rw [split, div_eq_div_iff (by positivity) (by positivity)]
  linear_combination -(10 : ℚ) ^ (width * (d / width)) * cast

theorem lifted_eq_zero {k scale : Nat} {m u : Int} (lifted : u * 10 ^ k = m * 10 ^ scale) : u = 0 ↔ m = 0 := by
  have power (n : Nat) : (10 : Int) ^ n ≠ 0 := by positivity
  constructor
  · rintro rfl
    rw [zero_mul] at lifted
    exact (mul_eq_zero.mp lifted.symm).resolve_right (power _)
  · rintro rfl
    rw [zero_mul] at lifted
    exact (mul_eq_zero.mp lifted).resolve_right (power _)

theorem power_eq_one {width d : Nat} (wide : 0 < width) : (10 : Int) ^ (width * (d / width)) = 1 ↔ d < width := by
  have power : (10 : Int) ^ (width * (d / width)) = 1 ↔ 10 ^ (width * (d / width)) = 1 := by norm_cast
  rw [power, Nat.pow_eq_one, Nat.mul_eq_zero, Nat.div_eq_zero_iff]
  omega

theorem sum_iff_of_le {width d e scale : Nat} {m n u v : Int} (wide : 0 < width)
    (lifted : u * 10 ^ (d % width) = m * 10 ^ scale) (lifted' : v * 10 ^ (e % width) = n * 10 ^ scale)
    (small : |v| < 10 ^ width) (order : d / width ≤ e / width) :
    ((u + v : Int) : ℚ) / 10 ^ scale = m / 10 ^ d + n / 10 ^ e ↔
      ((m = 0 ∨ d < width) ∧ (n = 0 ∨ e < width)) ∨ (m : ℚ) / 10 ^ d + n / 10 ^ e = 0 := by
  set p : Int := 10 ^ (width * (d / width))
  set r : Int := 10 ^ (width * (e / width - d / width))
  have product : p * r = 10 ^ (width * (e / width)) := by
    rw [← pow_add, ← Nat.mul_add, Nat.add_sub_cancel' order]
  have positive : 0 < p := by positivity
  have positive' : 0 < r := by positivity
  have large : r = 1 ∨ |v| < r := by
    rcases Nat.eq_zero_or_pos (e / width - d / width) with none | more
    · exact .inl (by rw [show r = 10 ^ (width * (e / width - d / width)) from rfl, none, Nat.mul_zero, pow_zero])
    · refine .inr (small.trans_le ?_)
      exact pow_le_pow_right₀ (by norm_num) (Nat.le_mul_of_pos_right _ more)
  have first : (m : ℚ) / 10 ^ d = u / (10 ^ scale * p) := by
    rw [value_lifted lifted]
    push_cast [p]
    rfl
  have second : (n : ℚ) / 10 ^ e = v / (10 ^ scale * (p * r)) := by
    have cast : (p : ℚ) * r = 10 ^ (width * (e / width)) := by exact_mod_cast product
    rw [value_lifted lifted', cast]
  have above : (0 : ℚ) < p := by exact_mod_cast positive
  have above' : (0 : ℚ) < r := by exact_mod_cast positive'
  have sum : (m : ℚ) / 10 ^ d + n / 10 ^ e = ((r * u + v : Int) : ℚ) / (10 ^ scale * (p * r)) := by
    rw [first, second]
    push_cast
    field_simp
  have same : ((u + v : Int) : ℚ) / 10 ^ scale = m / 10 ^ d + n / 10 ^ e ↔ p * r * (u + v) = r * u + v := by
    rw [sum, div_eq_div_iff (by positivity) (by positivity)]
    have factor : ((u + v : Int) : ℚ) * (10 ^ scale * (p * r)) = ((r * u + v : Int) : ℚ) * 10 ^ scale ↔
        ((p * r * (u + v) : Int) : ℚ) * 10 ^ scale = ((r * u + v : Int) : ℚ) * 10 ^ scale := by
      rw [show ((u + v : Int) : ℚ) * (10 ^ scale * (p * r)) = ((p * r * (u + v) : Int) : ℚ) * 10 ^ scale by
        push_cast
        ring]
    rw [factor, mul_left_inj' (by positivity)]
    exact Int.cast_inj
  have zero : (m : ℚ) / 10 ^ d + n / 10 ^ e = 0 ↔ r * u + v = 0 := by
    have below : (10 : ℚ) ^ scale * (p * r) ≠ 0 := by positivity
    rw [sum, div_eq_zero_iff, or_iff_left below]
    exact Int.cast_eq_zero
  rw [same, zero, lifted_sum_iff positive large, lifted_eq_zero lifted, lifted_eq_zero lifted', power_eq_one wide,
    product, power_eq_one wide]

theorem sum_iff {width d e scale : Nat} {m n u v : Int} (wide : 0 < width)
    (lifted : u * 10 ^ (d % width) = m * 10 ^ scale) (lifted' : v * 10 ^ (e % width) = n * 10 ^ scale)
    (small : |u| < 10 ^ width) (small' : |v| < 10 ^ width) :
    ((u + v : Int) : ℚ) / 10 ^ scale = m / 10 ^ d + n / 10 ^ e ↔
      ((m = 0 ∨ d < width) ∧ (n = 0 ∨ e < width)) ∨ (m : ℚ) / 10 ^ d + n / 10 ^ e = 0 := by
  rcases Nat.le_total (d / width) (e / width) with order | order
  · exact sum_iff_of_le wide lifted lifted' small' order
  · rw [add_comm u, add_comm ((m : ℚ) / 10 ^ d), and_comm]
    exact sum_iff_of_le wide lifted' lifted small order

theorem product_iff {width d e : Nat} (m n : Int) (wide : 0 < width) :
    ((m * n : Int) : ℚ) / 10 ^ ((d % width + e % width) % width) = m / 10 ^ d * (n / 10 ^ e) ↔
      (m : ℚ) / 10 ^ d * (n / 10 ^ e) = 0 ∨ d + e < width := by
  have product : (m : ℚ) / 10 ^ d * (n / 10 ^ e) = ((m * n : Int) : ℚ) / 10 ^ (d + e) := by
    push_cast
    rw [pow_add, div_mul_div_comm]
  rw [product, ← Nat.add_mod]
  by_cases zero : ((m * n : Int) : ℚ) = 0
  · rw [zero, zero_div, zero_div]
    exact ⟨fun _ => .inl rfl, fun _ => rfl⟩
  · have power (k : Nat) : (10 : ℚ) ^ k ≠ 0 := by positivity
    have same : ((m * n : Int) : ℚ) / 10 ^ ((d + e) % width) = ((m * n : Int) : ℚ) / 10 ^ (d + e) ↔
        (d + e) % width = d + e := by
      rw [div_eq_div_iff (power _) (power _), mul_right_inj' zero, pow_right_inj₀ (by norm_num) (by norm_num)]
      exact eq_comm
    rw [same, div_eq_zero_iff, or_iff_left (power _), or_iff_right zero]
    exact ⟨fun same => same ▸ Nat.mod_lt _ wide, Nat.mod_eq_of_lt⟩

section
variable {op : ArithOp} {left right : PropertyValue} {x y : ℚ}

theorem decimalArithmetic_lifted {a b : Int × Nat} {aLifted bLifted : Int} (first : scaled left = some a)
    (second : scaled right = some b) (lifted : lift (max a.2 b.2) a = some aLifted)
    (lifted' : lift (max a.2 b.2) b = some bLifted) :
    decimalArithmetic op left right = textOf (resultOf op a b aLifted bLifted) := by
  rw [decimalArithmetic_eq first second, lifted, lifted']

theorem decimalArithmetic_overflows (overflows : Overflows op left right) :
    decimalArithmetic op left right = .unknown := by
  cases first : scaled left with
  | none => exact decimalArithmetic_unknown (.inl first)
  | some a =>
    cases second : scaled right with
    | none => exact decimalArithmetic_unknown (.inr second)
    | some b =>
      rw [decimalArithmetic_eq first second]
      cases lifted : lift (max a.2 b.2) a with
      | none => rfl
      | some aLifted =>
        cases lifted' : lift (max a.2 b.2) b with
        | none => rfl
        | some bLifted =>
          dsimp only
          have none := overflows a b aLifted bLifted first second lifted lifted'
          cases result : resultOf op a b aLifted bLifted with
          | mk mantissa scale =>
            rw [result] at none
            obtain rfl : mantissa = Option.none := none
            rfl

theorem abs_lt_power {n : Int} (fits : InI128 n) {width : Nat} (wide : 39 ≤ width) : |n| < 10 ^ width := by
  obtain ⟨low, high⟩ := fits
  have most : |n| ≤ 2 ^ 127 := abs_le.mpr ⟨low, high.le⟩
  calc |n| ≤ 2 ^ 127 := most
    _ < 10 ^ 39 := by norm_num
    _ ≤ 10 ^ width := pow_le_pow_right₀ (by norm_num) wide

theorem eq_zero_iff {m : Int} {d : Nat} : (m : ℚ) / 10 ^ d = 0 ↔ m = 0 := by
  rw [div_eq_zero_iff, or_iff_left (by positivity), Int.cast_eq_zero]

theorem result_iff {a b : Int × Nat} {aLifted bLifted mantissa : Int} {scale : Nat} (first : scaled left = some a)
    (second : scaled right = some b) (lifted : lift (max a.2 b.2) a = some aLifted)
    (lifted' : lift (max a.2 b.2) b = some bLifted) (l : numberOf left = some x) (r : numberOf right = some y)
    (result : resultOf op a b aLifted bLifted = (some mantissa, scale)) :
    (mantissa : ℚ) / 10 ^ scale = answerOf op x y ↔ Counted op left right x y := by
  obtain ⟨number, count⟩ := scaled_spec first
  obtain ⟨number', count'⟩ := scaled_spec second
  obtain rfl := Option.some.inj (l.symm.trans number)
  obtain rfl := Option.some.inj (r.symm.trans number')
  obtain ⟨same, fits⟩ := lift_spec lifted (Nat.le_max_left _ _)
  obtain ⟨same', fits'⟩ := lift_spec lifted' (Nat.le_max_right _ _)
  -- the width is a variable from here on, so that nothing evaluates a power of it
  obtain ⟨width, is⟩ : ∃ width, width = 2 ^ 32 := ⟨_, rfl⟩
  have wide : 39 ≤ width := by rw [is]; decide
  unfold Counted
  rw [← is] at count count' ⊢
  rw [count, count'] at same same'
  cases op with
  | div => cases result
  | add =>
    obtain ⟨checked, rfl⟩ := Prod.mk.inj result
    obtain ⟨-, rfl⟩ := checkI128_eq_some.mp checked
    rw [eq_zero_iff, eq_zero_iff, count, count']
    exact sum_iff (by omega) same same' (abs_lt_power fits wide) (abs_lt_power fits' wide)
  | sub =>
    obtain ⟨checked, rfl⟩ := Prod.mk.inj result
    obtain ⟨-, rfl⟩ := checkI128_eq_some.mp checked
    have negated : -bLifted * 10 ^ (fractionDigits right % width) =
        -b.1 * 10 ^ max (fractionDigits left % width) (fractionDigits right % width) := by
      rw [neg_mul, neg_mul, same']
    have sum := sum_iff (by omega) same negated (abs_lt_power fits wide)
      ((abs_neg bLifted).le.trans_lt (abs_lt_power fits' wide))
    rw [eq_zero_iff, eq_zero_iff, count, count']
    simp only [Int.cast_neg, neg_div, neg_eq_zero, ← sub_eq_add_neg] at sum
    exact sum
  | mul =>
    have wrapped : resultOf .mul a b aLifted bLifted = (checkI128 (a.1 * b.1), (a.2 + b.2) % width) := by
      rw [is]
      rfl
    obtain ⟨checked, rfl⟩ := Prod.mk.inj (wrapped.symm.trans result)
    obtain ⟨-, rfl⟩ := checkI128_eq_some.mp checked
    rw [count, count']
    exact product_iff a.1 b.1 (by omega)

theorem exact_of_result {a b : Int × Nat} {aLifted bLifted mantissa : Int} {scale : Nat} (first : scaled left = some a)
    (second : scaled right = some b) (lifted : lift (max a.2 b.2) a = some aLifted)
    (lifted' : lift (max a.2 b.2) b = some bLifted) (l : numberOf left = some x) (r : numberOf right = some y)
    (result : resultOf op a b aLifted bLifted = (some mantissa, scale)) :
    Exact op left right x y ↔ Counted op left right x y := by
  have known := @decimalArithmetic_lifted op _ _ _ _ _ _ first second lifted lifted'
  rw [result] at known
  rw [← result_iff first second lifted lifted' l r result, Exact, known]
  constructor
  · rintro (unknown | ⟨text, same, denotes⟩)
    · cases unknown
    · obtain rfl := PropertyValue.decimal.inj (Outcome.known.inj same)
      rw [decimalValue_render] at denotes
      exact Option.some.inj denotes
  · intro same
    exact .inr ⟨_, rfl, by rw [decimalValue_render, same]⟩

/-- Exact decimal arithmetic is exact where the digits behind the points are counted, and a rendered mantissa denotes
what it stands for. -/
theorem exact_iff (op : ArithOp) (left right : PropertyValue) (x y : ℚ)
    (l : numberOf left = some x) (r : numberOf right = some y) :
    (∀ (mantissa : Int) (scale : Nat), decimalValue (render mantissa scale) = some ((mantissa : ℚ) / 10 ^ scale)) ∧
      (Exact op left right x y ↔ Overflows op left right ∨ Counted op left right x y) := by
  refine ⟨decimalValue_render, ?_⟩
  by_cases overflows : Overflows op left right
  · exact iff_of_true (.inl (decimalArithmetic_overflows overflows)) (.inl overflows)
  · rw [or_iff_right overflows]
    simp only [Overflows, not_forall] at overflows
    obtain ⟨a, b, aLifted, bLifted, first, second, lifted, lifted', some⟩ := overflows
    obtain ⟨mantissa, is⟩ := Option.ne_none_iff_exists'.mp some
    have result : resultOf op a b aLifted bLifted = (Option.some mantissa, (resultOf op a b aLifted bLifted).2) :=
      Prod.ext is rfl
    exact exact_of_result first second lifted lifted' l r result

end

theorem split_price : splitDecimal "19.99" = some (false, [1, 9], [9, 9]) := by decide +kernel

theorem exact_iff_price : Exact .add (.decimal "19.99") (.integer 1) (1999 / 100) 1 := by
  have number : numberOf (.decimal "19.99") = some (1999 / 100) := by
    rw [numberOf, decimalValue, split_price, Option.map_some, denoted]
    norm_num [digitsValue, Nat.ofDigits]
  have digits : fractionDigits (.decimal "19.99") = 2 := by rw [fractionDigits, split_price]; rfl
  refine (exact_iff .add _ (.integer 1) _ 1 number (by simp [numberOf])).2.mpr (.inr (.inl ⟨.inr ?_, .inr ?_⟩))
  · rw [digits]
    norm_num
  · norm_num [fractionDigits]

def longText (zeros : Nat) : String := .ofList ('0' :: '.' :: (List.replicate zeros '0' ++ ['1']))

theorem split_longText (zeros : Nat) : splitDecimal (longText zeros) = some (false, [0], List.replicate zeros 0 ++ [1]) := by
  have digits : (List.replicate zeros '0' ++ ['1']).all Char.isDigit = true := by
    rw [all_append, Bool.and_eq_true]
    exact ⟨all_eq_true.mpr fun c inside => (eq_of_mem_replicate inside) ▸ rfl, rfl⟩
  have split := @splitDecimal_rendered false ['0'] (List.replicate zeros '0' ++ ['1']) (by simp) rfl digits true
    fun is => by cases is
  rw [map_append, map_replicate] at split
  exact split

theorem value_longText (zeros : Nat) : digitsValue ([0] ++ (List.replicate zeros 0 ++ [1])) = 1 := by
  rw [digitsValue_append, digitsValue_snoc, digitsValue_replicate]
  simp [digitsValue]

theorem number_longText (zeros : Nat) : numberOf (.decimal (longText zeros)) = some (1 / 10 ^ (zeros + 1)) := by
  rw [numberOf, decimalValue, split_longText, Option.map_some, denoted]
  dsimp only
  rw [value_longText]
  simp

theorem longText_inexact {zeros : Nat} (uncounted : (zeros + 1) % 2 ^ 32 = 0) :
    ¬ Exact .add (.decimal (longText zeros)) (.integer 0) (1 / 10 ^ (zeros + 1)) 0 := by
  have digits : fractionDigits (.decimal (longText zeros)) = zeros + 1 := by
    rw [fractionDigits, split_longText]
    simp
  have first : scaled (.decimal (longText zeros)) = some (1, 0) := by
    have mantissa := @mantissaOf_small ([0] ++ (List.replicate zeros 0 ++ [1])) (by rw [value_longText]; norm_num)
    rw [value_longText] at mantissa
    have length : (List.replicate zeros 0 ++ [1]).length % 2 ^ 32 = 0 := by simpa using uncounted
    simp only [scaled, split_longText, Option.bind_eq_bind, Option.bind_some, mantissa]
    rw [length]
    rfl
  have second : scaled (.integer 0) = some (0, 0) := rfl
  have lifted : lift (max 0 0) (1, 0) = some 1 := by decide +kernel
  have lifted' : lift (max 0 0) (0, 0) = some 0 := by decide +kernel
  have result : resultOf .add (1, 0) (0, 0) 1 0 = (some 1, 0) := by decide +kernel
  rw [exact_of_result first second lifted lifted' (number_longText zeros) (by simp [numberOf]) result]
  have positive : (1 : ℚ) / 10 ^ (zeros + 1) ≠ 0 := div_ne_zero one_ne_zero (pow_ne_zero _ (by norm_num))
  rintro (⟨zero | few, -⟩ | zero)
  · exact positive zero
  · rw [digits] at few
    rw [Nat.mod_eq_of_lt few] at uncounted
    cases uncounted
  · exact positive ((add_zero _).symm.trans zero)

theorem digits_miscounted : ¬ ∀ (op : ArithOp) (left right : PropertyValue) (x y : ℚ), numberOf left = some x →
    numberOf right = some y → Exact op left right x y := by
  intro all
  exact longText_inexact (by norm_num) (all .add (.decimal (longText (2 ^ 32 - 1))) (.integer 0) _ 0
    (number_longText _) (by simp [numberOf]))

end TallyOwl.Expr
