import Mathlib.Data.Nat.Digits.Lemmas
import Mathlib.Tactic.FieldSimp
import TallyOwl.Head.Expr

/-! What the texts of decimals denote (`expr.rs`). Digits are read from the highest, the fraction's behind the
whole ones, and a rendered mantissa reads back as the number it stands for. -/
namespace TallyOwl.Expr
open List

def digitsValue (digits : List Nat) : Nat := Nat.ofDigits 10 digits.reverse

def denoted (parts : Bool × List Nat × List Nat) : ℚ :=
  (if parts.1 then -1 else 1) * digitsValue (parts.2.1 ++ parts.2.2) / 10 ^ parts.2.2.length

def decimalValue (text : String) : Option ℚ := (splitDecimal text).map denoted

/-- The number of a whole number or of a decimal that can be read. -/
def numberOf : PropertyValue → Option ℚ
  | .integer v => some v
  | .unsigned v => some v
  | .decimal text => decimalValue text
  | _ => none

def fractionDigits : PropertyValue → Nat
  | .decimal text => ((splitDecimal text).map fun parts => parts.2.2.length).getD 0
  | _ => 0

@[simp] theorem digitsValue_nil : digitsValue [] = 0 := rfl

theorem digitsValue_append (xs ys : List Nat) :
    digitsValue (xs ++ ys) = digitsValue xs * 10 ^ ys.length + digitsValue ys := by
  rw [digitsValue, reverse_append, Nat.ofDigits_append, length_reverse, digitsValue, digitsValue,
    Nat.mul_comm, Nat.add_comm]

theorem digitsValue_snoc (xs : List Nat) (d : Nat) : digitsValue (xs ++ [d]) = digitsValue xs * 10 + d := by
  rw [digitsValue_append]
  simp [digitsValue]

theorem digitsValue_cons (d : Nat) (xs : List Nat) : digitsValue (d :: xs) = d * 10 ^ xs.length + digitsValue xs := by
  rw [← singleton_append, digitsValue_append]
  simp [digitsValue]

theorem digitsValue_lt {digits : List Nat} (small : ∀ d ∈ digits, d < 10) :
    digitsValue digits < 10 ^ digits.length := by
  rw [digitsValue, ← length_reverse]
  exact Nat.ofDigits_lt_base_pow_length (by decide) fun d inside => small d (mem_reverse.mp inside)

theorem digitsValue_replicate (n : Nat) : digitsValue (List.replicate n 0) = 0 := by
  induction n with
  | zero => rfl
  | succ n ih => rw [replicate_succ, digitsValue_cons, ih, Nat.zero_mul]

def digitOf (c : Char) : Nat := c.toNat - '0'.toNat

theorem digitOf_lt {c : Char} (digit : c.isDigit = true) : digitOf c < 10 := by
  simp only [Char.isDigit, Bool.and_eq_true, decide_eq_true_eq, ge_iff_le, UInt32.le_iff_toNat_le] at digit
  have high : c.toNat ≤ 57 := digit.2
  change c.toNat - 48 < 10
  omega

theorem mapM_toDigit (chars : List Char) : chars.mapM toDigit =
    if chars.all Char.isDigit then some (chars.map digitOf) else none := by
  induction chars with
  | nil => rfl
  | cons c chars ih =>
    rw [mapM_cons, ih, toDigit, all_cons]
    cases c.isDigit with
    | false => rfl
    | true => cases chars.all Char.isDigit <;> rfl

theorem small_of_mapM {chars : List Char} {digits : List Nat} (read : chars.mapM toDigit = some digits) :
    ∀ d ∈ digits, d < 10 := by
  rw [mapM_toDigit] at read
  split at read
  · rename_i all
    cases read
    intro d inside
    obtain ⟨c, there, rfl⟩ := mem_map.mp inside
    exact digitOf_lt (all_eq_true.mp all c there)
  · cases read

theorem digitsValue_map (chars : List Char) : digitsValue (chars.map digitOf) = Nat.ofDigitChars 10 chars 0 := by
  induction chars using List.reverseRecOn with
  | nil => rfl
  | append_singleton chars c ih =>
    rw [map_append, map_singleton, digitsValue_snoc, ih, Nat.ofDigitChars_append]
    simp only [Nat.ofDigitChars_cons, Nat.ofDigitChars_nil, digitOf]
    omega

def isPlain (c : Char) : Bool := c.isDigit || c = '-' || c = '.'

theorem not_isWhitespace {c : Char} (plain : isPlain c = true) : isWhitespace c = false := by
  simp only [isPlain, Bool.or_eq_true, decide_eq_true_eq] at plain
  rcases plain with (digit | rfl) | rfl
  · simp only [Char.isDigit, Bool.and_eq_true, decide_eq_true_eq, ge_iff_le, UInt32.le_iff_toNat_le] at digit
    have low : 48 ≤ c.toNat := digit.1
    have high : c.toNat ≤ 57 := digit.2
    simp [isWhitespace]
    omega
  · decide
  · decide

theorem dropWhile_plain {text : List Char} (plain : ∀ c ∈ text, isPlain c = true) :
    text.dropWhile isWhitespace = text := by
  cases text with
  | nil => rfl
  | cons c text =>
    rw [dropWhile_cons, not_isWhitespace (plain c mem_cons_self)]
    rfl

theorem trim_plain {text : List Char} (plain : ∀ c ∈ text, isPlain c = true) : trim text = text := by
  rw [trim, dropWhile_plain plain, dropWhile_plain fun c inside => plain c (mem_reverse.mp inside),
    reverse_reverse]

theorem isPlain_of_isDigit {c : Char} (digit : c.isDigit = true) : isPlain c = true := by
  rw [isPlain, digit]
  rfl

theorem ne_of_isDigit {c : Char} (digit : c.isDigit = true) : c ≠ '-' ∧ c ≠ '+' ∧ c ≠ '.' := by
  refine ⟨?_, ?_, ?_⟩ <;> rintro rfl <;> revert digit <;> decide

theorem signOf_digit {c : Char} {rest : List Char} (digit : c.isDigit = true) :
    signOf (c :: rest) = (false, c :: rest) := by
  obtain ⟨minus, plus, -⟩ := ne_of_isDigit digit
  unfold signOf
  split
  · rename_i same
    exact (minus (List.cons.inj same).1).elim
  · rename_i same
    exact (plus (List.cons.inj same).1).elim
  · rfl

theorem splitPoint_digits {whole : List Char} (digits : whole.all Char.isDigit = true) :
    splitPoint whole = (whole, []) ∧ ∀ fraction, splitPoint (whole ++ '.' :: fraction) = (whole, fraction) := by
  have point : ∀ c ∈ whole, decide (c ≠ '.') = true := fun c inside =>
    decide_eq_true (ne_of_isDigit (all_eq_true.mp digits c inside)).2.2
  constructor
  · rw [splitPoint, takeWhile_eq_self_iff.mpr point, dropWhile_eq_nil_iff.mpr point]
    rfl
  · intro fraction
    rw [splitPoint, takeWhile_append_of_pos point, dropWhile_append_of_pos point]
    simp

theorem splitDecimal_rendered {negative : Bool} {whole fraction : List Char} (nonempty : whole ≠ [])
    (digits : whole.all Char.isDigit = true) (digits' : fraction.all Char.isDigit = true) (point : Bool)
    (empty : point = false → fraction = []) :
    splitDecimal (.ofList ((if negative then ['-'] else []) ++ (whole ++ if point then '.' :: fraction else []))) =
      some (negative, whole.map digitOf, fraction.map digitOf) := by
  set rest := whole ++ if point then '.' :: fraction else []
  have plain : ∀ c ∈ (if negative then ['-'] else []) ++ rest, isPlain c = true := by
    have front : ∀ c ∈ whole, isPlain c = true := fun c inside =>
      isPlain_of_isDigit (all_eq_true.mp digits c inside)
    have back : ∀ c ∈ fraction, isPlain c = true := fun c inside =>
      isPlain_of_isDigit (all_eq_true.mp digits' c inside)
    refine forall_mem_append.mpr ⟨?_, forall_mem_append.mpr ⟨front, ?_⟩⟩
    · cases negative <;> simp [isPlain]
    · cases point with
      | true => exact forall_mem_cons.mpr ⟨by decide, back⟩
      | false => exact fun c inside => (by cases inside)
  have sign : signOf ((if negative then ['-'] else []) ++ rest) = (negative, rest) := by
    cases negative with
    | true => rfl
    | false =>
      obtain ⟨c, whole, rfl⟩ := exists_cons_of_ne_nil nonempty
      exact signOf_digit (all_eq_true.mp digits c mem_cons_self)
  have parts : splitPoint rest = (whole, fraction) := by
    change splitPoint (whole ++ if point then '.' :: fraction else []) = _
    cases point with
    | true => exact (splitPoint_digits digits).2 fraction
    | false =>
      rw [empty rfl]
      simpa using (splitPoint_digits digits).1
  rw [splitDecimal, String.toList_ofList, trim_plain plain, sign]
  dsimp only
  rw [parts]
  dsimp only
  rw [mapM_toDigit, mapM_toDigit, if_pos digits, if_pos digits']
  simp [nonempty]

theorem toDigits_isDigit (n : Nat) : (Nat.toDigits 10 n).all Char.isDigit = true :=
  all_eq_true.mpr fun _ inside => Nat.isDigit_of_mem_toDigits (by decide) (by decide) inside

theorem toString_int (n : Int) : toString n =
    .ofList ((if decide (n < 0) then ['-'] else []) ++ (Nat.toDigits 10 n.natAbs ++
      if false then '.' :: [] else [])) := by
  change n.repr = _
  rw [Int.repr_eq_if]
  refine String.toList_inj.mp ?_
  split
  · rename_i positive
    have size : n.toNat = n.natAbs := by omega
    have sign : ¬ n < 0 := by omega
    rw [size, Nat.repr_eq_ofList_toDigits]
    simp [sign]
  · rename_i negative
    have size : (-n).toNat = n.natAbs := by omega
    have sign : n < 0 := by omega
    rw [String.toList_append, size, Nat.repr_eq_ofList_toDigits]
    simp [sign]

theorem decimalValue_render (mantissa : Int) (scale : Nat) :
    decimalValue (render mantissa scale) = some ((mantissa : ℚ) / 10 ^ scale) := by
  have signed : (if decide (mantissa < 0) = true then (-1 : ℚ) else 1) * mantissa.natAbs = mantissa := by
    rcases lt_or_ge mantissa 0 with negative | positive
    · rw [if_pos (decide_eq_true negative), Nat.cast_natAbs, abs_of_neg negative]
      push_cast
      ring
    · rw [if_neg (by simpa using positive), Nat.cast_natAbs, abs_of_nonneg positive, one_mul]
  by_cases whole : scale = 0
  · subst whole
    rw [decimalValue, render, if_pos rfl, toString_int, splitDecimal_rendered Nat.toDigits_ne_nil (toDigits_isDigit _)
      rfl false fun _ => rfl, Option.map_some, denoted]
    simp only [map_nil, append_nil, digitsValue_map, Nat.ofDigitChars_ten_toDigits, length_nil, pow_zero,
      div_one, signed]
  · set digits := Nat.toDigits 10 mantissa.natAbs
    set padded := List.replicate (scale + 1 - digits.length) '0' ++ digits
    have long : scale + 1 ≤ padded.length := by
      rw [length_append, length_replicate]
      omega
    have all : padded.all Char.isDigit = true := by
      rw [all_append, toDigits_isDigit, Bool.and_true]
      exact all_eq_true.mpr fun c inside => (eq_of_mem_replicate inside) ▸ rfl
    have text : render mantissa scale = .ofList ((if decide (mantissa < 0) then ['-'] else []) ++
        (padded.take (padded.length - scale) ++ if true then '.' :: padded.drop (padded.length - scale) else [])) := by
      rw [render, if_neg whole]
      by_cases negative : mantissa < 0 <;> simp [negative, padded, digits]
    have split := @splitDecimal_rendered (decide (mantissa < 0)) (padded.take (padded.length - scale))
      (padded.drop (padded.length - scale)) (fun none => by
        have empty := congrArg List.length none
        rw [length_take, length_nil] at empty
        omega)
      (all_eq_true.mpr fun c inside => all_eq_true.mp all c (mem_of_mem_take inside))
      (all_eq_true.mpr fun c inside => all_eq_true.mp all c (mem_of_mem_drop inside)) true
      (fun is => by cases is)
    have size : (padded.drop (padded.length - scale)).length = scale := by
      rw [length_drop]
      omega
    have value : digitsValue ((padded.take (padded.length - scale)).map digitOf ++
        (padded.drop (padded.length - scale)).map digitOf) = mantissa.natAbs := by
      rw [← map_append, take_append_drop, digitsValue_map, Nat.ofDigitChars_append,
        Nat.ofDigitChars_replicate_zero, Nat.mul_zero, Nat.ofDigitChars_ten_toDigits]
    rw [decimalValue, text, split, Option.map_some, denoted]
    dsimp only
    rw [value, length_map, size, signed]

theorem checkI128_eq_some {n m : Int} : checkI128 n = some m ↔ InI128 n ∧ n = m := by
  unfold checkI128
  split
  · rename_i fits
    exact ⟨fun is => ⟨fits, Option.some.inj is⟩, fun ⟨_, is⟩ => congrArg some is⟩
  · rename_i large
    exact ⟨fun is => (by cases is), fun ⟨fits, _⟩ => (large fits).elim⟩

theorem mantissaOf_snoc (digits : List Nat) (digit : Nat) : mantissaOf (digits ++ [digit]) =
    (mantissaOf digits).bind fun mantissa => (checkI128 (mantissa * 10)).bind fun lifted =>
      checkI128 (lifted + digit) := by
  simp only [mantissaOf, foldlM_append, foldlM_cons, foldlM_nil, bind_pure, Option.bind_eq_bind]

theorem mantissaOf_eq {digits : List Nat} {mantissa : Int} (found : mantissaOf digits = some mantissa) :
    mantissa = digitsValue digits := by
  induction digits using List.reverseRecOn generalizing mantissa with
  | nil => exact (Option.some.inj found).symm
  | append_singleton digits digit ih =>
    simp only [mantissaOf_snoc, Option.bind_eq_some_iff, checkI128_eq_some] at found
    obtain ⟨held, before, lifted, ⟨-, rfl⟩, -, rfl⟩ := found
    rw [digitsValue_snoc, ih before]
    push_cast
    ring

theorem mantissaOf_small {digits : List Nat} (small : digitsValue digits < 2 ^ 127) :
    mantissaOf digits = some (digitsValue digits : Int) := by
  induction digits using List.reverseRecOn with
  | nil => rfl
  | append_singleton digits digit ih =>
    rw [digitsValue_snoc] at small
    have first : checkI128 ((digitsValue digits : Int) * 10) = some ((digitsValue digits : Int) * 10) :=
      checkI128_eq_some.mpr ⟨⟨by omega, by omega⟩, rfl⟩
    have second : checkI128 ((digitsValue digits : Int) * 10 + digit) =
        some ((digitsValue (digits ++ [digit]) : Nat) : Int) := by
      rw [digitsValue_snoc]
      exact checkI128_eq_some.mpr ⟨⟨by omega, by omega⟩, by push_cast; rfl⟩
    rw [mantissaOf_snoc, ih (by omega), Option.bind_some, first, Option.bind_some, second]

theorem scaled_spec {value : PropertyValue} {p : Int × Nat} (found : scaled value = some p) :
    numberOf value = some ((p.1 : ℚ) / 10 ^ fractionDigits value) ∧ p.2 = fractionDigits value % 2 ^ 32 := by
  cases value with
  | integer v =>
    cases found
    simp [numberOf, fractionDigits]
  | unsigned v =>
    cases found
    simp [numberOf, fractionDigits]
  | decimal text =>
    simp only [scaled, Option.bind_eq_bind, Option.bind_eq_some_iff] at found
    obtain ⟨⟨negative, whole, fraction⟩, split, mantissa, digits, same⟩ := found
    cases same
    have value := mantissaOf_eq digits
    rw [numberOf, decimalValue, fractionDigits, split, Option.map_some, denoted]
    refine ⟨?_, rfl⟩
    cases negative <;> simp [value]
  | _ => cases found

theorem lift_spec {scale : Nat} {p : Int × Nat} {lifted : Int} (found : lift scale p = some lifted)
    (finer : p.2 ≤ scale) : lifted * 10 ^ p.2 = p.1 * 10 ^ scale ∧ InI128 lifted := by
  simp only [lift, checkedPow, Option.bind_eq_bind, Option.bind_eq_some_iff, checkI128_eq_some] at found
  obtain ⟨factor, ⟨-, rfl⟩, fits, rfl⟩ := found
  rw [mul_assoc, ← pow_add, Nat.sub_add_cancel finer]
  exact ⟨rfl, fits⟩

end TallyOwl.Expr
