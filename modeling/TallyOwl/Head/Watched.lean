import TallyOwl.Head.Expr
import TallyOwl.Lib.Checked

/-! The evaluator with every plain operator of a whole number watched (`expr.rs`): a sum, a
difference, a product, a negation or a quotient that its type does not hold stops it, and so
does an operand that is not there. The operators that the source checks itself answer
unknown, here as there. -/
namespace TallyOwl.Expr
open Lib Query Locate RowCodec List

def i64 (n : Int) : Checked Empty Int := .within InI64 n

def i128 (n : Int) : Checked Empty Int := .within InI128 n

def u32 (n : Nat) : Checked Empty Nat := .within (· < 2 ^ 32) n

section

def watchedSign (negative : Bool) (mantissa : Int) : Checked Empty Int :=
  if negative then i128 (-mantissa) else .ok mantissa

def watchedScaled : PropertyValue → Checked Empty (Option (Int × Nat))
  | .decimal text =>
      match splitDecimal text with
      | none => .ok none
      | some (negative, whole, fraction) =>
          match mantissaOf (whole ++ fraction) with
          | none => .ok none
          | some mantissa => do
              let mantissa ← watchedSign negative mantissa
              .ok (some (mantissa, fraction.length % 2 ^ 32))
  | value => .ok (scaled value)

def watchedLift (scale : Nat) (value : Int × Nat) : Checked Empty (Option Int) := do
  let exponent ← Checked.minus scale value.2
  .ok ((checkedPow exponent).bind fun factor => checkI128 (value.1 * factor))

def watchedPad (scale : Nat) (digits : List Char) : Checked Empty (List Char) :=
  if digits.length ≤ scale then do
    let wide ← Checked.word (scale + 1)
    let zeros ← Checked.minus wide digits.length
    .ok (List.replicate zeros '0' ++ digits)
  else .ok digits

def watchedRender (mantissa : Int) (scale : Nat) : Checked Empty String :=
  if scale = 0 then .ok (toString mantissa)
  else do
    let padded ← watchedPad scale (Nat.toDigits 10 mantissa.natAbs)
    let split ← Checked.minus padded.length scale
    .ok (.ofList (if mantissa < 0 then '-' :: (padded.take split ++ '.' :: padded.drop split)
      else padded.take split ++ '.' :: padded.drop split))

/-- The mantissa and the scale of an exact operation. The scales of a product are added with a
plain operator. -/
def watchedResult (op : ArithOp) (a b : Int × Nat) (aLifted bLifted : Int) :
    Checked Empty (Option Int × Nat) :=
  match op with
  | .add => .ok (checkI128 (aLifted + bLifted), max a.2 b.2)
  | .sub => .ok (checkI128 (aLifted - bLifted), max a.2 b.2)
  | .mul => do
      let both ← u32 (a.2 + b.2)
      .ok (checkI128 (a.1 * b.1), both)
  | .div => .ok (none, 0)

def watchedText : Option Int × Nat → Checked Empty Outcome
  | (some mantissa, scale) => do
      let text ← watchedRender mantissa scale
      .ok (.known (.decimal text))
  | (none, _) => .ok .unknown

def watchedDecimal (op : ArithOp) (left right : PropertyValue) : Checked Empty Outcome := do
  let left ← watchedScaled left
  let right ← watchedScaled right
  match left, right with
  | some a, some b => do
      let aLifted ← watchedLift (max a.2 b.2) a
      let bLifted ← watchedLift (max a.2 b.2) b
      match aLifted, bLifted with
      | some aLifted, some bLifted => do
          let result ← watchedResult op a b aLifted bLifted
          watchedText result
      | _, _ => .ok .unknown
  | _, _ => .ok .unknown

def watchedArithmetic (floats : Floats) (op : ArithOp) (left right : PropertyValue) :
    Checked Empty Outcome :=
  if isDecimal left || isDecimal right then watchedDecimal op left right
  else .ok (arithmetic floats op left right)

/-- The year of an era that a day of it is in, and the day of that year. -/
def watchedYear (dayOfEra : Int) : Checked Empty (Int × Int) := do
  let ordinary ← i64 (dayOfEra - dayOfEra.tdiv 1460)
  let ordinary ← i64 (ordinary + dayOfEra.tdiv 36524)
  let ordinary ← i64 (ordinary - dayOfEra.tdiv 146096)
  let yearOfEra := ordinary.tdiv 365
  let whole ← i64 (365 * yearOfEra)
  let whole ← i64 (whole + yearOfEra.tdiv 4)
  let whole ← i64 (whole - yearOfEra.tdiv 100)
  let dayOfYear ← i64 (dayOfEra - whole)
  .ok (yearOfEra, dayOfYear)

/-- The month and the day of a day of the year, counted from March. -/
def watchedMonth (dayOfYear : Int) : Checked Empty (Int × Int) := do
  let fifths ← i64 (5 * dayOfYear)
  let fifths ← i64 (fifths + 2)
  let monthPrime := fifths.tdiv 153
  let passed ← i64 (153 * monthPrime)
  let passed ← i64 (passed + 2)
  let day ← i64 (dayOfYear - passed.tdiv 5)
  let day ← i64 (day + 1)
  let month ← i64 (if monthPrime < 10 then monthPrime + 3 else monthPrime - 9)
  .ok (month, day)

def watchedCivil (days : Int) : Checked Empty (Int × Int × Int) := do
  let z ← i64 (days + 719468)
  let era := z / 146097
  let before ← i64 (era * 146097)
  let dayOfEra ← i64 (z - before)
  let inEra ← watchedYear dayOfEra
  let eraYears ← i64 (era * 400)
  let year ← i64 (inEra.1 + eraYears)
  let inYear ← watchedMonth inEra.2
  let year ← i64 (if inYear.1 ≤ 2 then year + 1 else year)
  .ok (year, inYear)

def watchedExtract (moment : Int) (part : String) : Checked Empty Outcome := do
  let days := moment / 86400000
  let inDay := moment % 86400000
  let known (value : Int) : Checked Empty Outcome := .ok (.known (.integer value))
  match part with
  | "millisecond" => known (inDay.tmod 1000)
  | "second" => known ((inDay.tdiv 1000).tmod 60)
  | "minute" => known ((inDay.tdiv 60000).tmod 60)
  | "hour" => known (inDay.tdiv 3600000)
  | "weekday" => do
      let shifted ← i64 (days + 4)
      known (shifted % 7)
  | "year" => do
      let date ← watchedCivil days
      known date.1
  | "month" => do
      let date ← watchedCivil days
      known date.2.1
  | "day" => do
      let date ← watchedCivil days
      known date.2.2
  | _ => .ok .unknown

def watchedLogical (op : LogicalOp) (truths : List (Option Bool)) : Checked Empty Outcome :=
  match op with
  | .not => do
      let first ← Checked.item truths 0
      .ok (match first with
        | some value => .boolean !value
        | none => .unknown)
  | op => .ok (evaluateLogical op truths)

def watchedArith (floats : Floats) (op : ArithOp) (left right : Outcome) : Checked Empty Outcome :=
  match left.value, right.value with
  | some left, some right => watchedArithmetic floats op left right
  | _, _ => .ok .unknown

def watchedTime (function : TimeFunction) (operand : Outcome) (intervalMs : Option Int)
    (part : Option String) (shiftMs : Option Int) : Checked Empty Outcome :=
  match operand.value.bind asInteger with
  | none => .ok .unknown
  | some moment =>
      match function with
      | .truncate =>
          match intervalMs with
          | some interval =>
              if interval > 0 then do
                let start ← i64 (moment - moment % interval)
                .ok (.known (.integer start))
              else .ok .unknown
          | none => .ok .unknown
      | .shift => do
          let moved ← i64 (moment + shiftMs.getD 0)
          .ok (.known (.integer moved))
      | .extract =>
          match part with
          | some part => watchedExtract moment part
          | none => .ok .unknown

variable (floats : Floats)

mutual

def watchedEvaluate (row : EventRow) : Node → Checked Empty Outcome
  | .literal value => .ok (.known value)
  | .field field => .ok (read field row)
  | .compare op left right => do
      let left ← watchedEvaluate row left
      let right ← watchedEvaluate row right
      .ok (evaluateCompare floats op left right)
  | .set negated left values => do
      let left ← watchedEvaluate row left
      .ok (evaluateSet floats negated left values)
  | .text test left pattern => do
      let left ← watchedEvaluate row left
      .ok (evaluateText test left pattern)
  | .null negated operand => do
      let operand ← watchedEvaluate row operand
      .ok (evaluateNull negated operand)
  | .logical op operands => do
      let truths ← watchedTruths row operands
      watchedLogical op truths
  | .arith op left right => do
      let left ← watchedEvaluate row left
      let right ← watchedEvaluate row right
      watchedArith floats op left right
  | .time function operand intervalMs part shiftMs => do
      let operand ← watchedEvaluate row operand
      watchedTime function operand intervalMs part shiftMs
  | .convert target operand => do
      let operand ← watchedEvaluate row operand
      .ok (evaluateConvert floats target operand)

def watchedTruths (row : EventRow) : List Node → Checked Empty (List (Option Bool))
  | [] => .ok []
  | node :: nodes => do
      let outcome ← watchedEvaluate row node
      let rest ← watchedTruths row nodes
      .ok (outcome.truth :: rest)

end

end

/-! The plain operators on decimals. -/

section
variable {value left right : PropertyValue} {op : ArithOp}

theorem i64_of {n : Int} (fits : InI64 n) : i64 n = .ok n := Checked.within_of fits

theorem watchedScaled_eq (value : PropertyValue) : watchedScaled value = .ok (scaled value) := by
  unfold watchedScaled
  split
  · rename_i text
    split
    · rename_i none
      simp [scaled, none]
    · rename_i negative whole fraction split
      split
      · rename_i none
        simp [scaled, split, none]
      · rename_i mantissa read
        have bounds := mantissaOf_fits read
        have signed : watchedSign negative mantissa = .ok (if negative then -mantissa else mantissa) := by
          cases negative with
          | false => rfl
          | true => exact Checked.within_of (by unfold InI128; omega)
        rw [signed]
        simp [scaled, split, read]
  · rfl

theorem watchedLift_eq {scale : Nat} {value : Int × Nat} (wide : value.2 ≤ scale) :
    watchedLift scale value = .ok (lift scale value) := by
  rw [watchedLift, Checked.minus_of_le wide]
  rfl

theorem watchedPad_eq {scale : Nat} (small : scale < 2 ^ 32) (digits : List Char) (some : digits ≠ []) :
    watchedPad scale digits = .ok (List.replicate (scale + 1 - digits.length) '0' ++ digits) := by
  have length : 0 < digits.length := length_pos_iff.mpr some
  unfold watchedPad
  split
  · rw [Checked.word_of_lt (by omega), Checked.ok_bind, Checked.minus_of_le (by omega), Checked.ok_bind]
  · rename_i long
    have none : scale + 1 - digits.length = 0 := by omega
    rw [none, replicate_zero, nil_append]

theorem watchedRender_eq (mantissa : Int) {scale : Nat} (small : scale < 2 ^ 32) :
    watchedRender mantissa scale = .ok (render mantissa scale) := by
  unfold watchedRender render
  split
  · rfl
  · have padded := watchedPad_eq small (Nat.toDigits 10 mantissa.natAbs) Nat.toDigits_ne_nil
    have room : scale ≤ (List.replicate (scale + 1 - (Nat.toDigits 10 mantissa.natAbs).length) '0' ++
        Nat.toDigits 10 mantissa.natAbs).length := by
      rw [length_append, length_replicate]
      omega
    rw [padded, Checked.ok_bind, Checked.minus_of_le room]
    rfl

theorem scaled_scale {part : Int × Nat} (found : scaled value = some part) : part.2 < 2 ^ 32 := by
  cases value with
  | integer v =>
    cases found
    exact Nat.two_pow_pos 32
  | unsigned v =>
    cases found
    exact Nat.two_pow_pos 32
  | decimal text =>
    simp only [scaled, Option.bind_eq_bind, Option.bind_eq_some_iff] at found
    obtain ⟨_, -, _, -, same⟩ := found
    cases same
    exact Nat.mod_lt _ (by decide)
  | _ => cases found

def textOf : Option Int × Nat → Outcome
  | (some mantissa, scale) => .known (.decimal (render mantissa scale))
  | (none, _) => .unknown

theorem watchedText_eq {result : Option Int × Nat} (small : result.2 < 2 ^ 32) :
    watchedText result = .ok (textOf result) := by
  obtain ⟨mantissa, scale⟩ := result
  cases mantissa with
  | none => rfl
  | some mantissa =>
    simp only [watchedText, watchedRender_eq mantissa small, Checked.ok_bind]
    rfl

def resultOf (op : ArithOp) (a b : Int × Nat) (aLifted bLifted : Int) : Option Int × Nat :=
  match op with
  | .add => (checkI128 (aLifted + bLifted), max a.2 b.2)
  | .sub => (checkI128 (aLifted - bLifted), max a.2 b.2)
  | .mul => (checkI128 (a.1 * b.1), (a.2 + b.2) % 2 ^ 32)
  | .div => (none, 0)

/-- The scales of two decimals that are multiplied add up to a scale. It is asked only where the
source gets to the sum: both sides are exact numbers that lift to the wider scale. -/
def ScalesFit (op : ArithOp) (left right : PropertyValue) : Prop :=
  match scaled left, scaled right with
  | some a, some b =>
      op = .mul → lift (max a.2 b.2) a ≠ none → lift (max a.2 b.2) b ≠ none → a.2 + b.2 < 2 ^ 32
  | _, _ => True

theorem settles_result (op : ArithOp) {a b : Int × Nat} (first : a.2 < 2 ^ 32) (second : b.2 < 2 ^ 32)
    (aLifted bLifted : Int) : Checked.Settles (watchedResult op a b aLifted bLifted >>= watchedText)
      (op = .mul → a.2 + b.2 < 2 ^ 32) (textOf (resultOf op a b aLifted bLifted)) := by
  have wider : max a.2 b.2 < 2 ^ 32 := max_lt first second
  cases op with
  | mul =>
    have product := @Checked.settles_within Empty _ (fun n : Nat => n < 2 ^ 32) _ (a.2 + b.2)
    constructor
    · intro fits
      have small := fits rfl
      have wrapped : (a.2 + b.2) % 2 ^ 32 = a.2 + b.2 := Nat.mod_eq_of_lt small
      rw [watchedResult, u32, product.runs small, Checked.ok_bind, Checked.ok_bind, watchedText_eq small,
        resultOf, wrapped]
    · intro wide
      have stopped := product.stops fun small => wide fun _ => small
      rw [watchedResult, Checked.faults_bind, Checked.faults_bind]
      exact .inl (.inl stopped)
  | add => exact (Checked.Settles.of_eq (watchedText_eq wider)).congr (by simp)
  | sub => exact (Checked.Settles.of_eq (watchedText_eq wider)).congr (by simp)
  | div => exact (Checked.Settles.of_eq rfl).congr (by simp)

theorem decimalArithmetic_eq {a b : Int × Nat} (first : scaled left = some a)
    (second : scaled right = some b) : decimalArithmetic op left right =
      match lift (max a.2 b.2) a, lift (max a.2 b.2) b with
      | some aLifted, some bLifted => textOf (resultOf op a b aLifted bLifted)
      | _, _ => .unknown := by
  have read : ∀ result : Option Int × Nat, (match result.1 with
      | some mantissa => Outcome.known (.decimal (render mantissa result.2))
      | none => .unknown) = textOf result := by
    rintro ⟨mantissa, scale⟩
    cases mantissa <;> rfl
  unfold decimalArithmetic
  -- the kernel would evaluate a lift, down to its bounds, to find which branch is taken
  obtain ⟨lifting, same⟩ : ∃ f, lift = f := ⟨_, rfl⟩
  rw [first, second, same]
  dsimp only
  cases lifting (max a.2 b.2) a with
  | none => rfl
  | some aLifted =>
    cases lifting (max a.2 b.2) b with
    | none => rfl
    | some bLifted => exact read _

theorem decimalArithmetic_unknown (absent : scaled left = none ∨ scaled right = none) :
    decimalArithmetic op left right = .unknown := by
  unfold decimalArithmetic
  rcases absent with none | none
  · rw [none]
  · rw [none]
    cases scaled left <;> rfl

theorem settles_decimal (op : ArithOp) (left right : PropertyValue) : Checked.Settles
    (watchedDecimal op left right) (ScalesFit op left right) (decimalArithmetic op left right) := by
  rw [watchedDecimal, watchedScaled_eq, watchedScaled_eq, Checked.ok_bind, Checked.ok_bind]
  cases first : scaled left with
  | none =>
    rw [decimalArithmetic_unknown (.inl first)]
    exact (Checked.Settles.of_eq rfl).congr (by simp [ScalesFit, first])
  | some a =>
    cases second : scaled right with
    | none =>
      rw [decimalArithmetic_unknown (.inr second)]
      exact (Checked.Settles.of_eq rfl).congr (by simp [ScalesFit, second])
    | some b =>
      rw [decimalArithmetic_eq first second]
      dsimp only
      rw [watchedLift_eq (le_max_left _ _), watchedLift_eq (le_max_right _ _), Checked.ok_bind,
        Checked.ok_bind]
      cases lifted : lift (max a.2 b.2) a with
      | none => exact (Checked.Settles.of_eq rfl).congr (by simp [ScalesFit, first, second, lifted])
      | some aLifted =>
        cases lifted' : lift (max a.2 b.2) b with
        | none =>
          exact (Checked.Settles.of_eq rfl).congr
            (by simp [ScalesFit, first, second, lifted, lifted'])
        | some bLifted =>
          exact (settles_result op (scaled_scale first) (scaled_scale second) aLifted bLifted).congr
            (by simp [ScalesFit, first, second, lifted, lifted'])

end

/-! The plain operators on moments. -/

theorem i64_bind {α : Type} {n : Int} {f : Int → Checked Empty α} (fits : InI64 n) : i64 n >>= f = f n := by
  rw [i64_of fits, Checked.ok_bind]

theorem inI64_of {n : Int} (low : -2 ^ 62 ≤ n) (high : n ≤ 2 ^ 62) : InI64 n := by
  unfold InI64
  omega

/-- The days of an era before the year that a day of it is in are no more than the days before that
day, and no year has more than 366 of them. -/
theorem dayOfYear_bounds {day : Int} (low : 0 ≤ day) (high : day < 146097) {year : Int}
    (is : year = (day - day / 1460 + day / 36524 - day / 146096) / 365) :
    0 ≤ day - (365 * year + year / 4 - year / 100) ∧ day - (365 * year + year / 4 - year / 100) < 366 := by
  have centuries : day / 36524 = 0 ∨ day / 36524 = 1 ∨ day / 36524 = 2 ∨ day / 36524 = 3 ∨
      day / 36524 = 4 := by omega
  have last : day / 146096 = 0 ∨ day / 146096 = 1 := by omega
  have least : 36499 * (day / 36524) ≤ day - day / 1460 := by omega
  have hundreds : year / 100 = day / 36524 - day / 146096 := by omega
  have leaps : year / 4 ≤ day / 1460 := by omega
  constructor <;> omega

theorem watchedYear_eq {day : Int} (low : 0 ≤ day) (high : day < 146097) {year : Int}
    (is : year = (day - day / 1460 + day / 36524 - day / 146096) / 365) :
    watchedYear day = .ok (year, day - (365 * year + year / 4 - year / 100)) := by
  obtain ⟨first, last⟩ := dayOfYear_bounds low high is
  have whole : 0 ≤ day - day / 1460 + day / 36524 - day / 146096 := by omega
  have positive : 0 ≤ year := by omega
  unfold watchedYear
  rw [Int.tdiv_eq_ediv_of_nonneg low, Int.tdiv_eq_ediv_of_nonneg low, Int.tdiv_eq_ediv_of_nonneg low,
    i64_bind (inI64_of (by omega) (by omega)), i64_bind (inI64_of (by omega) (by omega)),
    i64_bind (inI64_of (by omega) (by omega))]
  dsimp only
  rw [Int.tdiv_eq_ediv_of_nonneg whole, ← is, Int.tdiv_eq_ediv_of_nonneg positive,
    Int.tdiv_eq_ediv_of_nonneg positive, i64_bind (inI64_of (by omega) (by omega)),
    i64_bind (inI64_of (by omega) (by omega)), i64_bind (inI64_of (by omega) (by omega)),
    i64_bind (inI64_of (by omega) (by omega))]

theorem watchedMonth_eq {day : Int} (low : 0 ≤ day) (high : day < 366) {month : Int}
    (is : month = (5 * day + 2) / 153) : watchedMonth day = .ok (if month < 10 then month + 3 else month - 9,
      day - (153 * month + 2) / 5 + 1) := by
  have positive : 0 ≤ 5 * day + 2 := by omega
  have passed : 0 ≤ 153 * month + 2 := by omega
  unfold watchedMonth
  rw [i64_bind (inI64_of (by omega) (by omega)), i64_bind (inI64_of (by omega) (by omega))]
  dsimp only
  rw [Int.tdiv_eq_ediv_of_nonneg positive, ← is, i64_bind (inI64_of (by omega) (by omega)),
    i64_bind (inI64_of (by omega) (by omega)), Int.tdiv_eq_ediv_of_nonneg passed,
    i64_bind (inI64_of (by omega) (by omega)), i64_bind (inI64_of (by omega) (by omega)),
    i64_bind (inI64_of (by split <;> omega) (by split <;> omega))]

theorem watchedCivil_eq {days : Int} (low : -2 ^ 40 ≤ days) (high : days < 2 ^ 40) :
    watchedCivil days = .ok (civilFromDays days) := by
  have start : days + 719468 - (days + 719468) / 146097 * 146097 = (days + 719468) % 146097 := by omega
  have first : 0 ≤ (days + 719468) % 146097 := by omega
  have last : (days + 719468) % 146097 < 146097 := by omega
  have inEra := watchedYear_eq first last rfl
  obtain ⟨positive, short⟩ := dayOfYear_bounds first last rfl
  have inYear := watchedMonth_eq positive short rfl
  unfold watchedCivil civilFromDays
  rw [i64_bind (inI64_of (by omega) (by omega))]
  dsimp only
  rw [i64_bind (inI64_of (by omega) (by omega)), i64_bind (inI64_of (by omega) (by omega)), start, inEra,
    Checked.ok_bind, i64_bind (inI64_of (by omega) (by omega))]
  dsimp only
  rw [i64_bind (inI64_of (by omega) (by omega)), inYear, Checked.ok_bind]
  dsimp only
  rw [i64_bind (inI64_of (by split <;> omega) (by split <;> omega))]

theorem watchedExtract_eq {moment : Int} (fits : InI64 moment) (part : String) :
    watchedExtract moment part = .ok (extract moment part) := by
  obtain ⟨low, high⟩ := fits
  have civil : watchedCivil (moment / 86400000) = .ok (civilFromDays (moment / 86400000)) :=
    watchedCivil_eq (by omega) (by omega)
  have first : 0 ≤ moment % 86400000 := by omega
  have days : InI64 (moment / 86400000 + 4) := inI64_of (by omega) (by omega)
  unfold watchedExtract extract
  split <;> simp only [civil, Checked.ok_bind, i64_bind days, Int.tdiv_eq_ediv_of_nonneg first,
    Int.tmod_eq_emod_of_nonneg first] <;> try rfl
  · rw [Int.tmod_eq_emod_of_nonneg (by omega)]
  · rw [Int.tmod_eq_emod_of_nonneg (by omega)]

/-- What a time function asks of a moment: the moment it gives back is one. -/
def MomentKept (function : TimeFunction) (moment : Int) (intervalMs shiftMs : Option Int) : Prop :=
  match function with
  | .truncate => ∀ interval, intervalMs = some interval → 0 < interval → InI64 (moment - moment % interval)
  | .shift => InI64 (moment + shiftMs.getD 0)
  | .extract => True

theorem wrapI64_of {n : Int} (fits : InI64 n) : wrapI64 n = n := by
  obtain ⟨low, high⟩ := fits
  exact Int.bmod_eq_of_le (by omega) (by omega)

theorem settles_moment {n : Int} : Checked.Settles
    (do let kept ← i64 n; .ok (.known (.integer kept)) : Checked Empty Outcome) (InI64 n)
    (.known (.integer (wrapI64 n))) where
  runs := fun fits => by rw [i64_bind fits, wrapI64_of fits]
  stops := fun leaves => Checked.faults_bind.mpr (.inl ((Checked.settles_within InI64 n).stops leaves))

theorem settles_time {function : TimeFunction} {operand : Outcome} {intervalMs shiftMs : Option Int}
    (fits : ∀ moment, operand.value.bind asInteger = some moment → InI64 moment) (part : Option String) :
    Checked.Settles (watchedTime function operand intervalMs part shiftMs)
      (∀ moment, operand.value.bind asInteger = some moment → MomentKept function moment intervalMs shiftMs)
      (evaluateTime function operand intervalMs part shiftMs) := by
  unfold watchedTime evaluateTime
  cases read : operand.value.bind asInteger with
  | none => exact (Checked.Settles.of_eq rfl).congr (by simp)
  | some moment =>
    have here : (∀ m, some moment = some m → MomentKept function m intervalMs shiftMs) ↔
        MomentKept function moment intervalMs shiftMs := by simp
    rw [here]
    cases function with
    | truncate =>
      cases intervalMs with
      | none => exact (Checked.Settles.of_eq rfl).congr (by simp [MomentKept])
      | some interval =>
        by_cases positive : interval > 0
        · simp only [if_pos positive]
          exact settles_moment.congr (by simp [MomentKept, positive])
        · simp only [if_neg positive]
          exact (Checked.Settles.of_eq rfl).congr (by simp [MomentKept, positive])
    | shift => exact settles_moment.congr Iff.rfl
    | extract =>
      cases part with
      | none => exact (Checked.Settles.of_eq rfl).congr Iff.rfl
      | some part =>
        exact (Checked.Settles.of_eq (watchedExtract_eq (fits moment read) part)).congr Iff.rfl

/-! The nodes. -/

section
variable {floats : Floats}

/-- What an arithmetic asks of its operands: where one of them is a decimal, their scales fit. -/
def ProductKept (op : ArithOp) (left right : Outcome) : Prop :=
  ∀ a b, left.value = some a → right.value = some b → (isDecimal a || isDecimal b) = true →
    ScalesFit op a b

theorem settles_arith (op : ArithOp) (left right : Outcome) : Checked.Settles
    (watchedArith floats op left right) (ProductKept op left right) (evaluateArith floats op left right) := by
  unfold ProductKept
  unfold watchedArith evaluateArith
  cases left.value with
  | none => exact (Checked.Settles.of_eq rfl).congr (by simp)
  | some a =>
    cases right.value with
    | none => exact (Checked.Settles.of_eq rfl).congr (by simp)
    | some b =>
      dsimp only
      unfold watchedArithmetic arithmetic
      by_cases decimal : (isDecimal a || isDecimal b) = true
      · simp only [if_pos decimal]
        refine (settles_decimal op a b).congr ⟨fun all => all a b rfl rfl decimal, ?_⟩
        rintro fits _ _ ⟨⟩ ⟨⟩ -
        exact fits
      · simp only [if_neg decimal]
        refine (Checked.Settles.of_eq rfl).congr (iff_true_intro ?_)
        rintro _ _ ⟨⟩ ⟨⟩ yes
        exact (decimal yes).elim

theorem settles_logical {op : LogicalOp} {truths : List (Option Bool)} (some : truths ≠ []) :
    watchedLogical op truths = .ok (evaluateLogical op truths) := by
  obtain ⟨first, rest, rfl⟩ := exists_cons_of_ne_nil some
  cases op <;> rfl

section
variable (floats : Floats) (row : EventRow)

mutual

/-- What the parser leaves of an expression: the numbers of its literals are of their types, an
interval and a shift are `i64`s, and a logical operator has an operand. -/
def Admitted : Node → Prop
  | .literal value => ValueFits value
  | .field _ => True
  | .compare _ left right => Admitted left ∧ Admitted right
  | .set _ left values => Admitted left ∧ ∀ value ∈ values, ValueFits value
  | .text _ left _ => Admitted left
  | .null _ operand => Admitted operand
  | .logical op operands => operands ≠ [] ∧ (op = .not → operands.length = 1) ∧ AllAdmitted operands
  | .arith _ left right => Admitted left ∧ Admitted right
  | .time _ operand intervalMs _ shiftMs => Admitted operand ∧
      (∀ interval, intervalMs = some interval → InI64 interval) ∧ ∀ shift, shiftMs = some shift → InI64 shift
  | .convert _ operand => Admitted operand

def AllAdmitted : List Node → Prop
  | [] => True
  | node :: nodes => Admitted node ∧ AllAdmitted nodes

end

mutual

/-- Every plain operator that an evaluation gets to has an answer of its type: in each time
function, and in each product of decimals, over the values its operands have on the row. -/
def Kept : Node → Prop
  | .literal _ => True
  | .field _ => True
  | .compare _ left right => Kept left ∧ Kept right
  | .set _ left _ => Kept left
  | .text _ left _ => Kept left
  | .null _ operand => Kept operand
  | .logical _ operands => AllKept operands
  | .arith op left right => Kept left ∧ Kept right ∧
      ProductKept op (evaluate floats row left) (evaluate floats row right)
  | .time function operand intervalMs _ shiftMs => Kept operand ∧
      ∀ moment, (evaluate floats row operand).value.bind asInteger = some moment →
        MomentKept function moment intervalMs shiftMs
  | .convert _ operand => Kept operand

def AllKept : List Node → Prop
  | [] => True
  | node :: nodes => Kept node ∧ AllKept nodes

end

structure RowTyped (row : EventRow) : Prop where
  occurredAt : InI64 row.occurredAt
  receivedAt : InI64 row.receivedAt
  committedAt : InI64 row.committedAt
  properties : ∀ p ∈ row.properties, ValueFits p.2.1

end

section
variable {row : EventRow}

/-- The outcome holds no whole number outside an `i64`. -/
def Fits : Outcome → Prop
  | .known (.integer n) => InI64 n
  | _ => True

theorem extract_fits {moment : Int} (fits : InI64 moment) (part : String) : Fits (extract moment part) := by
  obtain ⟨low, high⟩ := fits
  unfold extract civilFromDays
  dsimp only
  split <;> unfold Fits InI64 <;> first | trivial | (constructor <;> omega)

theorem fits_optional (text : Option String) : Fits (optionalText text) := by
  cases text <;> trivial

theorem fits_value {value : PropertyValue} (fits : ValueFits value) : Fits (.known value) := by
  cases value <;> first | exact fits | trivial

theorem readBuiltIn_fits (typed : RowTyped row) {name : String} {outcome : Outcome}
    (found : readBuiltIn name row = some outcome) : Fits outcome := by
  unfold readBuiltIn at found
  split at found <;> cases found
  case h_8 => exact typed.occurredAt
  case h_9 => exact typed.receivedAt
  case h_10 => exact typed.committedAt
  case h_15 => cases row.traceId <;> trivial
  all_goals first | trivial | exact fits_optional _

theorem read_fits (typed : RowTyped row) (field : Field) : Fits (read field row) := by
  unfold read
  split
  · rename_i outcome found
    exact readBuiltIn_fits typed found
  · split
    · trivial
    · rename_i name value origin found
      have fits : ValueFits value := typed.properties _ (mem_of_find?_eq_some found)
      split
      · trivial
      · split
        · trivial
        · exact fits_value fits

theorem fits_textOf (result : Option Int × Nat) : Fits (textOf result) := by
  obtain ⟨mantissa, scale⟩ := result
  cases mantissa <;> trivial

theorem decimalArithmetic_fits (op : ArithOp) (left right : PropertyValue) :
    Fits (decimalArithmetic op left right) := by
  cases first : scaled left with
  | none => rw [decimalArithmetic_unknown (.inl first)]; trivial
  | some a =>
    cases second : scaled right with
    | none => rw [decimalArithmetic_unknown (.inr second)]; trivial
    | some b =>
      rw [decimalArithmetic_eq first second]
      split
      · exact fits_textOf _
      · trivial

theorem wholeArithmetic_fits {op : ArithOp} {a b n : Int} (found : wholeArithmetic op a b = some n) : InI64 n := by
  have checked : ∀ m, checkI64 m = some n → InI64 n := by
    intro m same
    unfold checkI64 at same
    split at same
    · cases same
      assumption
    · cases same
  cases op with
  | div =>
    simp only [wholeArithmetic] at found
    split at found
    · cases found
    · rename_i whole
      split at found
      · cases found
        exact not_not.mp fun leaves => whole (.inr leaves)
      · cases found
  | _ => exact checked _ found

theorem arithmetic_fits (op : ArithOp) (left right : PropertyValue) : Fits (arithmetic floats op left right) := by
  have inexact : ∀ a b, Fits (floatArithmetic floats op a b) := by
    intro a b
    cases op <;> first | trivial | (unfold floatArithmetic; dsimp only; split <;> trivial)
  unfold arithmetic
  split
  · exact decimalArithmetic_fits op left right
  · split
    · split
      · split
        · rename_i n found
          exact wholeArithmetic_fits found
        · split
          · trivial
          · exact inexact _ _
      · exact inexact _ _
    · trivial

theorem asInteger_fits {outcome : Outcome} (fits : Fits outcome) {n : Int}
    (found : outcome.value.bind asInteger = some n) : InI64 n := by
  obtain ⟨value, known, whole⟩ := Option.bind_eq_some_iff.mp found
  cases outcome with
  | unknown => cases known
  | known v =>
    obtain rfl := Option.some.inj known
    cases v with
    | integer m =>
      cases whole
      exact fits
    | unsigned m =>
      simp only [asInteger] at whole
      split at whole
      · cases whole
        unfold InI64
        omega
      · cases whole
    | _ => cases whole

theorem convert_fits (saturates : ∀ bits, InI64 (floats.toI64 bits)) {value : PropertyValue}
    (fits : Fits (.known value)) (target : String) : Fits (convert floats value target) := by
  have whole : ∀ value : PropertyValue, Fits (.known value) →
      Fits (((asInteger value).map fun n => Outcome.known (.integer n)).getD .unknown) := by
    intro value fits
    cases read : asInteger value with
    | none => trivial
    | some n => exact @asInteger_fits (.known value) fits n read
  unfold convert
  split
  · trivial
  · split
    · rename_i text
      cases read : parseI64 text with
      | none => trivial
      | some n =>
        have small : InI64 n := by simpa using (Option.filter_eq_some_iff.mp read).2
        exact small
    · exact saturates _
    · exact whole _ fits
  · cases asFloat floats value <;> trivial
  · split
    case h_2 => split <;> trivial
    all_goals trivial
  · split <;> trivial
  · trivial

/-- No evaluation gives a whole number outside an `i64`. -/
theorem evaluate_fits (saturates : ∀ bits, InI64 (floats.toI64 bits)) (typed : RowTyped row) :
    (node : Node) → Admitted node → Fits (evaluate floats row node)
  | .literal value, admitted => by
      rw [evaluate]
      exact fits_value admitted
  | .field field, _ => by
      rw [evaluate]
      exact read_fits typed field
  | .compare op left right, _ => by
      rw [evaluate]
      unfold evaluateCompare
      split
      · split <;> trivial
      · trivial
  | .set negated left values, _ => by
      rw [evaluate]
      unfold evaluateSet
      split <;> trivial
  | .text test left pattern, _ => by
      rw [evaluate]
      unfold evaluateText
      split <;> trivial
  | .null negated operand, _ => by
      rw [evaluate]
      trivial
  | .logical op operands, _ => by
      rw [evaluate]
      cases op <;> unfold evaluateLogical <;> dsimp only <;> split <;> first | trivial | (split <;> trivial)
  | .arith op left right, _ => by
      rw [evaluate]
      unfold evaluateArith
      split
      · exact arithmetic_fits op _ _
      · trivial
  | .time function operand intervalMs part shiftMs, admitted => by
      have operandFits := evaluate_fits saturates typed operand admitted.1
      rw [evaluate]
      unfold evaluateTime
      split
      · trivial
      · rename_i moment found
        cases function with
        | truncate =>
          dsimp only
          split
          · split
            · exact inI64_wrapI64 _
            · trivial
          · trivial
        | shift => exact inI64_wrapI64 _
        | extract =>
          dsimp only
          split
          · exact extract_fits (asInteger_fits operandFits found) _
          · trivial
  | .convert target operand, admitted => by
      have operandFits := evaluate_fits saturates typed operand admitted
      rw [evaluate]
      unfold evaluateConvert
      split
      · rename_i value known
        cases outcome : evaluate floats row operand with
        | unknown => rw [outcome] at known; cases known
        | known v =>
          rw [outcome] at known operandFits
          cases known
          exact convert_fits saturates operandFits target
      · trivial

end

section
variable {row : EventRow}

theorem truths_ne_nil {operands : List Node} (some : operands ≠ []) : truths floats row operands ≠ [] := by
  cases operands with
  | nil => exact (some rfl).elim
  | cons node nodes => simp [truths]

mutual

/-- The watched evaluation stops exactly where a plain operator has no answer of its type, and is
the evaluation elsewhere. -/
theorem settles_evaluate (saturates : ∀ bits, InI64 (floats.toI64 bits)) (typed : RowTyped row) :
    (node : Node) → Admitted node →
      Checked.Settles (watchedEvaluate floats row node) (Kept floats row node) (evaluate floats row node)
  | .literal value, _ => by
      rw [watchedEvaluate, Kept, evaluate]
      exact .of_eq rfl
  | .field field, _ => by
      rw [watchedEvaluate, Kept, evaluate]
      exact .of_eq rfl
  | .compare op left right, admitted => by
      have first := settles_evaluate saturates typed left admitted.1
      have second := settles_evaluate saturates typed right admitted.2
      rw [watchedEvaluate, Kept, evaluate]
      exact first.bind (second.map _)
  | .set negated left values, admitted => by
      have first := settles_evaluate saturates typed left admitted.1
      rw [watchedEvaluate, Kept, evaluate]
      exact first.map _
  | .text test left pattern, admitted => by
      have first := settles_evaluate saturates typed left admitted
      rw [watchedEvaluate, Kept, evaluate]
      exact first.map _
  | .null negated operand, admitted => by
      have first := settles_evaluate saturates typed operand admitted
      rw [watchedEvaluate, Kept, evaluate]
      exact first.map _
  | .logical op operands, admitted => by
      have all := settles_truths saturates typed operands admitted.2.2
      rw [watchedEvaluate, Kept, evaluate]
      exact (all.bind (.of_eq (settles_logical (truths_ne_nil admitted.1)))).congr (by simp)
  | .arith op left right, admitted => by
      have first := settles_evaluate saturates typed left admitted.1
      have second := settles_evaluate saturates typed right admitted.2
      rw [watchedEvaluate, Kept, evaluate]
      exact first.bind (second.bind (settles_arith op _ _))
  | .time function operand intervalMs part shiftMs, admitted => by
      have first := settles_evaluate saturates typed operand admitted.1
      have fits := evaluate_fits saturates typed operand admitted.1
      rw [watchedEvaluate, Kept, evaluate]
      exact first.bind (settles_time (fun moment found => asInteger_fits fits found) part)
  | .convert target operand, admitted => by
      have first := settles_evaluate saturates typed operand admitted
      rw [watchedEvaluate, Kept, evaluate]
      exact first.map _

theorem settles_truths (saturates : ∀ bits, InI64 (floats.toI64 bits)) (typed : RowTyped row) :
    (nodes : List Node) → AllAdmitted nodes →
      Checked.Settles (watchedTruths floats row nodes) (AllKept floats row nodes) (truths floats row nodes)
  | [], _ => by
      rw [watchedTruths, AllKept, truths]
      exact .of_eq rfl
  | node :: nodes, admitted => by
      have first := settles_evaluate saturates typed node admitted.1
      have rest := settles_truths saturates typed nodes admitted.2
      rw [watchedTruths, AllKept, truths]
      exact first.bind (rest.map _)

end

/-- An evaluation leaves no type, and gives what it gives, exactly where every time function has
a moment to give back and every product of decimals a scale. -/
theorem evaluation_keeps_iff (saturates : ∀ bits, InI64 (floats.toI64 bits)) (typed : RowTyped row)
    {node : Node} (admitted : Admitted node) :
    watchedEvaluate floats row node = .ok (evaluate floats row node) ↔ Kept floats row node :=
  (settles_evaluate saturates typed node admitted).iff_ok

end

theorem machineFloats_saturates (bits : UInt64) : InI64 (machineFloats.toI64 bits) :=
  ⟨Int64.le_toInt _, Int64.toInt_lt _⟩

theorem everyTypeRow_typed : RowTyped everyTypeRow where
  occurredAt := by decide
  receivedAt := by decide
  committedAt := by decide
  properties := by decide

def hourOfNextDay : Node :=
  .time .truncate (.time .shift (.field ⟨"committed_at", none, none⟩) none none (some 86400000))
    (some 3600000) none none

theorem evaluation_keeps_iff_hour : watchedEvaluate machineFloats everyTypeRow hourOfNextDay =
      .ok (evaluate machineFloats everyTypeRow hourOfNextDay) := by
  have admitted : Admitted hourOfNextDay := by simp [hourOfNextDay, Admitted, InI64]
  refine (evaluation_keeps_iff machineFloats_saturates everyTypeRow_typed admitted).mpr ⟨⟨trivial, ?_⟩, ?_⟩
  · intro moment read
    obtain rfl : 0 = moment := Option.some.inj read
    exact (by decide : InI64 (0 + (some 86400000).getD 0))
  · intro moment read interval same positive
    obtain rfl : 86400000 = moment := Option.some.inj read
    obtain rfl : 3600000 = interval := Option.some.inj same
    decide

/-- A row that occurred at the last moment an `i64` holds. -/
def lastMomentRow : EventRow := { everyTypeRow with occurredAt := 2 ^ 63 - 1 }

/-- A shift adds with a plain operator: one millisecond after the last moment is no moment. -/
theorem shift_past_last_moment :
    let later : Node := .time .shift (.field ⟨"occurred_at", none, none⟩) none none (some 1)
    RowTyped lastMomentRow ∧ Admitted later ∧
      Checked.Faults (watchedEvaluate machineFloats lastMomentRow later) ∧
        evaluate machineFloats lastMomentRow later = .known (.integer (-2 ^ 63)) := by
  refine ⟨⟨by decide, by decide, by decide, by decide⟩, ?_, ⟨.overflow, ?_⟩, ?_⟩
  · simp [Admitted, InI64]
  · decide +kernel
  · decide +kernel

end

end TallyOwl.Expr
