import Mathlib.Data.List.Dedup
import Mathlib.Data.List.Induction
import TallyOwl.Head.Document

/-! The expression evaluator (`expr.rs`). A comparison has three outcomes; a number orders
against a number of any storage type, exactly where a decimal takes part and through a
float elsewhere. The operations of a float are a parameter. Release arithmetic wraps. -/
namespace TallyOwl.Expr
open Lib Query Locate RowCodec

/-- The operations of an `f64`, on its bits. -/
structure Floats where
  ofI64 : Int → UInt64
  ofU64 : Nat → UInt64
  /-- `as i64`, which saturates. -/
  toI64 : UInt64 → Int
  parse : String → Option UInt64
  add : UInt64 → UInt64 → UInt64
  sub : UInt64 → UInt64 → UInt64
  mul : UInt64 → UInt64 → UInt64
  div : UInt64 → UInt64 → UInt64
  partialCmp : UInt64 → UInt64 → Option Ordering
  display : UInt64 → String
  partialCmp_swap : ∀ a b, partialCmp b a = (partialCmp a b).map Ordering.swap

def checkI64 (n : Int) : Option Int := if InI64 n then some n else none

def InI128 (n : Int) : Prop := -2 ^ 127 ≤ n ∧ n < 2 ^ 127

instance (n : Int) : Decidable (InI128 n) := inferInstanceAs (Decidable (_ ∧ _))

def checkI128 (n : Int) : Option Int := if InI128 n then some n else none

inductive Outcome where
  | known (value : PropertyValue)
  | unknown
  deriving DecidableEq

namespace Outcome

def boolean (value : Bool) : Outcome := .known (.boolean value)

def text (value : String) : Outcome := .known (.text value)

def truth : Outcome → Option Bool
  | .known (.boolean v) => some v
  | _ => none

def value : Outcome → Option PropertyValue
  | .known value => some value
  | .unknown => none

end Outcome

abbrev Field := FieldRef

def builtIn : List String :=
  ["event_id", "batch_id", "workspace_id", "project_id", "source_id", "kind", "name",
    "occurred_at", "received_at", "committed_at", "session_id", "request_id", "trace_id",
    "service_name", "release"]

def optionalText : Option String → Outcome
  | some text => .text text
  | none => .unknown

def readBuiltIn (name : String) (row : EventRow) : Option Outcome :=
  match name with
  | "event_id" => some (.known (.bytes row.eventId.bytes))
  | "batch_id" => some (.known (.bytes row.batchId.bytes))
  | "workspace_id" => some (.known (.bytes row.workspaceId.bytes))
  | "project_id" => some (.known (.bytes row.projectId.bytes))
  | "source_id" => some (.known (.bytes row.sourceId.bytes))
  | "kind" => some (.text row.kind)
  | "name" => some (.text row.name)
  | "occurred_at" => some (.known (.integer row.occurredAt))
  | "received_at" => some (.known (.integer row.receivedAt))
  | "committed_at" => some (.known (.integer row.committedAt))
  | "session_id" => some (optionalText row.sessionId)
  | "request_id" => some (optionalText row.requestId)
  | "service_name" => some (optionalText row.serviceName)
  | "release" => some (optionalText row.release)
  | "trace_id" => some (match row.traceId with
      | some id => .known (.bytes id.bytes)
      | none => .unknown)
  | _ => none

def originName : PropertyOrigin → String
  | .client => "client"
  | .driver => "driver"
  | .collector => "collector"

/-- Read a field from one row. A name of a column reads the column, and a selection that
this row does not match is not this row's value. -/
def read (field : Field) (row : EventRow) : Outcome :=
  match readBuiltIn field.name row with
  | some outcome => outcome
  | none =>
      match row.properties.find? (·.1 = field.name) with
      | none => .unknown
      | some (_, value, origin) =>
          if field.origin.any fun wanted => origin ≠ originName wanted then .unknown
          else if field.valueType.any fun wanted => typeName value ≠ wanted then .unknown
          else .known value

/-- `char::is_whitespace`. -/
def isWhitespace (c : Char) : Bool :=
  (0x9 ≤ c.toNat ∧ c.toNat ≤ 0xd) || (0x2000 ≤ c.toNat ∧ c.toNat ≤ 0x200a) ||
    c.toNat ∈ [0x20, 0x85, 0xa0, 0x1680, 0x2028, 0x2029, 0x202f, 0x205f, 0x3000]

def trim (text : List Char) : List Char :=
  ((text.dropWhile isWhitespace).reverse.dropWhile isWhitespace).reverse

def signOf (text : List Char) : Bool × List Char :=
  match text with
  | '-' :: rest => (true, rest)
  | '+' :: rest => (false, rest)
  | rest => (false, rest)

def splitPoint (text : List Char) : List Char × List Char :=
  (text.takeWhile (· ≠ '.'), (text.dropWhile (· ≠ '.')).drop 1)

/-- `char::to_digit`, in base ten. -/
def toDigit (c : Char) : Option Nat := if c.isDigit then some (c.toNat - '0'.toNat) else none

/-- Split decimal text into a sign, whole digits and fraction digits. -/
def splitDecimal (text : String) : Option (Bool × List Nat × List Nat) := do
  let (negative, rest) := signOf (trim text.toList)
  let (whole, fraction) := splitPoint rest
  let whole ← whole.mapM toDigit
  let fraction ← fraction.mapM toDigit
  if whole = [] ∧ fraction = [] then none else some (negative, whole, fraction)

def trimLeading (digits : List Nat) : List Nat := digits.dropWhile (· = 0)

/-- Two fractions digit by digit, the shorter one filled with zeros. -/
def compareFractions : List Nat → List Nat → Ordering
  | [], right => if right.all (· = 0) then .eq else .lt
  | a :: left, right => (compare a (right.headD 0)).then (compareFractions left right.tail)

def compareDigits (leftWhole leftFraction rightWhole rightFraction : List Nat) : Ordering :=
  let left := trimLeading leftWhole
  let right := trimLeading rightWhole
  (compare left.length right.length).then <|
    (compare left right).then (compareFractions leftFraction rightFraction)

def decimalCompare (left right : String) : Option Ordering := do
  let (leftNegative, leftWhole, leftFraction) ← splitDecimal left
  let (rightNegative, rightWhole, rightFraction) ← splitDecimal right
  if leftNegative ≠ rightNegative then
    let leftZero := (leftWhole ++ leftFraction).all (· = 0)
    let rightZero := (rightWhole ++ rightFraction).all (· = 0)
    if leftZero && rightZero then some .eq
    else some (if leftNegative then .lt else .gt)
  else
    let magnitude := compareDigits leftWhole leftFraction rightWhole rightFraction
    some (if leftNegative then magnitude.swap else magnitude)

/-- The decimal text of a whole number, for a comparison with a decimal. -/
def pipeDecimal : PropertyValue → Option String
  | .integer v => some (toString v)
  | .unsigned v => some (toString v)
  | _ => none

/-- The digits as a number, where it stays inside an `i128`. -/
def mantissaOf (digits : List Nat) : Option Int :=
  digits.foldlM (fun (mantissa : Int) (digit : Nat) => do
    let lifted ← checkI128 (mantissa * 10)
    checkI128 (lifted + digit)) 0

theorem mantissaOf_fits {digits : List Nat} {mantissa : Int} (found : mantissaOf digits = some mantissa) :
    0 ≤ mantissa ∧ mantissa < 2 ^ 127 := by
  induction digits using List.reverseRecOn generalizing mantissa with
  | nil =>
    cases found
    decide
  | append_singleton digits digit ih =>
    simp only [mantissaOf, List.foldlM_append, List.foldlM_cons, List.foldlM_nil, bind_pure,
      Option.bind_eq_bind, Option.bind_eq_some_iff, checkI128] at found
    obtain ⟨held, before, lifted, first, last⟩ := found
    obtain ⟨positive, -⟩ := ih before
    split at first
    · cases first
      split at last
      · cases last
        rename_i fits
        exact ⟨by omega, fits.2⟩
      · cases last
    · cases first

def scaled : PropertyValue → Option (Int × Nat)
  | .integer v => some (v, 0)
  | .unsigned v => some (v, 0)
  | .decimal text => do
      let (negative, whole, fraction) ← splitDecimal text
      let mantissa ← mantissaOf (whole ++ fraction)
      some (if negative then -mantissa else mantissa, fraction.length % 2 ^ 32)
  | _ => none

/-- `10i128.checked_pow`. -/
def checkedPow (exponent : Nat) : Option Int := checkI128 (10 ^ exponent)

def lift (scale : Nat) (value : Int × Nat) : Option Int := do
  let factor ← checkedPow (scale - value.2)
  checkI128 (value.1 * factor)

def render (mantissa : Int) (scale : Nat) : String :=
  if scale = 0 then toString mantissa
  else
    let digits := Nat.toDigits 10 mantissa.natAbs
    let padded := List.replicate (scale + 1 - digits.length) '0' ++ digits
    let split := padded.length - scale
    let text := padded.take split ++ '.' :: padded.drop split
    .ofList (if mantissa < 0 then '-' :: text else text)

def orderOf (less greater same same' : Bool) : Option Ordering :=
  if less && !greater then some .lt
  else if greater && !less then some .gt
  else if same && same' then some .eq
  else none

theorem orderOf_swap : ∀ less greater same same' : Bool,
    orderOf greater less same' same = (orderOf less greater same same').map Ordering.swap := by
  decide

def machineFloats : Floats where
  ofI64 n := (Float.ofInt n).toBits
  ofU64 n := (Float.ofNat n).toBits
  toI64 bits := (Float.ofBits bits).toInt64.toInt
  parse text := do
    let (mantissa, scale) ← scaled (.decimal text)
    let magnitude := Float.ofScientific mantissa.natAbs true scale
    some (if mantissa < 0 then -magnitude else magnitude).toBits
  add a b := (Float.ofBits a + Float.ofBits b).toBits
  sub a b := (Float.ofBits a - Float.ofBits b).toBits
  mul a b := (Float.ofBits a * Float.ofBits b).toBits
  div a b := (Float.ofBits a / Float.ofBits b).toBits
  partialCmp a b := orderOf (Float.ofBits a < Float.ofBits b) (Float.ofBits b < Float.ofBits a)
    (Float.ofBits a == Float.ofBits b) (Float.ofBits b == Float.ofBits a)
  display bits := toString (Float.ofBits bits)
  partialCmp_swap _ _ := orderOf_swap _ _ _ _

section
variable (floats : Floats)

def asFloat : PropertyValue → Option UInt64
  | .integer v => some (floats.ofI64 v)
  | .unsigned v => some (floats.ofU64 v)
  | .float bits => some bits
  | .decimal text => floats.parse text
  | _ => none

def asInteger : PropertyValue → Option Int
  | .integer v => some v
  | .unsigned v => if v < 2 ^ 63 then some v else none
  | _ => none

def compare : PropertyValue → PropertyValue → Option Ordering
  | .null, .null => some .eq
  | .boolean a, .boolean b => some (Ord.compare a b)
  | .text a, .text b => some (Ord.compare a b)
  | .bytes a, .bytes b => some (Ord.compare a b)
  | .decimal a, .decimal b => decimalCompare a b
  | .decimal a, other => (pipeDecimal other).bind fun b => decimalCompare a b
  | other, .decimal b => (pipeDecimal other).bind fun a => decimalCompare a b
  | left, right => do
      let a ← asFloat floats left
      let b ← asFloat floats right
      floats.partialCmp a b

inductive CompareOp where
  | eq | ne | lt | le | gt | ge
  deriving DecidableEq

inductive LogicalOp where
  | and | or | not
  deriving DecidableEq

inductive ArithOp where
  | add | sub | mul | div
  deriving DecidableEq

inductive TextTest where
  | startsWith | endsWith | contains
  deriving DecidableEq

inductive TimeFunction where
  | truncate | extract | shift
  deriving DecidableEq

inductive Node where
  | literal (value : PropertyValue)
  | field (field : Field)
  | compare (op : CompareOp) (left right : Node)
  | set (negated : Bool) (left : Node) (values : List PropertyValue)
  | text (test : TextTest) (left : Node) (pattern : String)
  | null (negated : Bool) (operand : Node)
  | logical (op : LogicalOp) (operands : List Node)
  | arith (op : ArithOp) (left right : Node)
  | time (function : TimeFunction) (operand : Node) (intervalMs : Option Int)
      (part : Option String) (shiftMs : Option Int)
  | convert (target : String) (operand : Node)

def decimalArithmetic (op : ArithOp) (left right : PropertyValue) : Outcome :=
  match scaled left, scaled right with
  | some a, some b =>
      let scale := max a.2 b.2
      match lift scale a, lift scale b with
      | some aLifted, some bLifted =>
          let result := match op with
            | .add => (checkI128 (aLifted + bLifted), scale)
            | .sub => (checkI128 (aLifted - bLifted), scale)
            | .mul => (checkI128 (a.1 * b.1), (a.2 + b.2) % 2 ^ 32)
            | .div => (none, 0)
          match result.1 with
          | some mantissa => .known (.decimal (render mantissa result.2))
          | none => .unknown
      | _, _ => .unknown
  | _, _ => .unknown

/-- The whole-number answer of two whole numbers, where there is one. -/
def wholeArithmetic (op : ArithOp) (a b : Int) : Option Int :=
  match op with
  | .add => checkI64 (a + b)
  | .sub => checkI64 (a - b)
  | .mul => checkI64 (a * b)
  | .div =>
      if b = 0 ∨ ¬ InI64 (a.tdiv b) then none
      else if a.tmod b = 0 then some (a.tdiv b) else none

def floatArithmetic (op : ArithOp) (a b : UInt64) : Outcome :=
  match op with
  | .add => .known (.float (floats.add a b))
  | .sub => .known (.float (floats.sub a b))
  | .mul => .known (.float (floats.mul a b))
  | .div =>
      if floats.partialCmp b (floats.ofI64 0) = some .eq then .unknown
      else .known (.float (floats.div a b))

def isDecimal : PropertyValue → Bool
  | .decimal _ => true
  | _ => false

def arithmetic (op : ArithOp) (left right : PropertyValue) : Outcome :=
  if isDecimal left || isDecimal right then decimalArithmetic op left right
  else
    match asFloat floats left, asFloat floats right with
    | some a, some b =>
        match asInteger left, asInteger right with
        | some x, some y =>
            match wholeArithmetic op x y with
            | some value => .known (.integer value)
            | none => if op ≠ .div then .unknown else floatArithmetic floats op a b
        | _, _ => floatArithmetic floats op a b
    | _, _ => .unknown

def civilFromDays (days : Int) : Int × Int × Int :=
  let z := days + 719468
  let era := z / 146097
  let dayOfEra := z - era * 146097
  let yearOfEra := (dayOfEra - dayOfEra / 1460 + dayOfEra / 36524 - dayOfEra / 146096) / 365
  let year := yearOfEra + era * 400
  let dayOfYear := dayOfEra - (365 * yearOfEra + yearOfEra / 4 - yearOfEra / 100)
  let monthPrime := (5 * dayOfYear + 2) / 153
  let day := dayOfYear - (153 * monthPrime + 2) / 5 + 1
  let month := if monthPrime < 10 then monthPrime + 3 else monthPrime - 9
  (if month ≤ 2 then year + 1 else year, month, day)

def extract (moment : Int) (part : String) : Outcome :=
  let days := moment / 86400000
  let inDay := moment % 86400000
  let known (value : Int) : Outcome := .known (.integer value)
  match part with
  | "millisecond" => known (inDay % 1000)
  | "second" => known (inDay / 1000 % 60)
  | "minute" => known (inDay / 60000 % 60)
  | "hour" => known (inDay / 3600000)
  | "weekday" => known ((days + 4) % 7)
  | "year" => known (civilFromDays days).1
  | "month" => known (civilFromDays days).2.1
  | "day" => known (civilFromDays days).2.2
  | _ => .unknown

def convert (value : PropertyValue) (target : String) : Outcome :=
  match target with
  | "text" => .text (value.toDisplay floats.display)
  | "int" =>
      match value with
      | .text text => ((parseI64 text).map fun n => Outcome.known (.integer n)).getD .unknown
      | .float bits => .known (.integer (floats.toI64 bits))
      | other => ((asInteger other).map fun n => Outcome.known (.integer n)).getD .unknown
  | "float" => ((asFloat floats value).map fun bits => Outcome.known (.float bits)).getD .unknown
  | "decimal" =>
      match value with
      | .decimal text => .known (.decimal text)
      | .text text => if (splitDecimal text).isSome then .known (.decimal text) else .unknown
      | .integer v => .known (.decimal (toString v))
      | .unsigned v => .known (.decimal (toString v))
      | _ => .unknown
  | "bool" =>
      match value with
      | .boolean v => .boolean v
      | .text "true" => .boolean true
      | .text "false" => .boolean false
      | _ => .unknown
  | _ => .unknown

def compareHolds (op : CompareOp) (ordering : Ordering) : Bool :=
  match op with
  | .eq => ordering = .eq
  | .ne => ordering ≠ .eq
  | .lt => ordering = .lt
  | .le => ordering ≠ .gt
  | .gt => ordering = .gt
  | .ge => ordering ≠ .lt

def textHolds (test : TextTest) (text pattern : List Char) : Bool :=
  match test with
  | .startsWith => pattern.isPrefixOf text
  | .endsWith => pattern.isSuffixOf text
  | .contains => text.tails.any pattern.isPrefixOf

def evaluateCompare (op : CompareOp) (left right : Outcome) : Outcome :=
  match left.value, right.value with
  | some left, some right =>
      match compare floats left right with
      | some ordering => .boolean (compareHolds op ordering)
      | none => .unknown
  | _, _ => .unknown

def evaluateSet (negated : Bool) (left : Outcome) (values : List PropertyValue) : Outcome :=
  match left.value with
  | some left => .boolean ((values.any fun value => compare floats left value = some .eq) != negated)
  | none => .unknown

def evaluateText (test : TextTest) (left : Outcome) (pattern : String) : Outcome :=
  match left.value with
  | some (.text text) => .boolean (textHolds test text.toList pattern.toList)
  | _ => .unknown

def evaluateNull (negated : Bool) (operand : Outcome) : Outcome :=
  .boolean ((operand = .unknown || operand = .known .null) != negated)

def evaluateLogical (op : LogicalOp) (truths : List (Option Bool)) : Outcome :=
  match op with
  | .and =>
      if some false ∈ truths then .boolean false
      else if truths.all (· = some true) then .boolean true
      else .unknown
  | .or =>
      if some true ∈ truths then .boolean true
      else if truths.all (· = some false) then .boolean false
      else .unknown
  | .not =>
      match truths.head?.join with
      | some value => .boolean !value
      | none => .unknown

def evaluateArith (op : ArithOp) (left right : Outcome) : Outcome :=
  match left.value, right.value with
  | some left, some right => arithmetic floats op left right
  | _, _ => .unknown

def evaluateTime (function : TimeFunction) (operand : Outcome) (intervalMs : Option Int)
    (part : Option String) (shiftMs : Option Int) : Outcome :=
  match operand.value.bind asInteger with
  | none => .unknown
  | some moment =>
      match function with
      | .truncate =>
          match intervalMs with
          | some interval =>
              if interval > 0 then .known (.integer (wrapI64 (moment - moment % interval)))
              else .unknown
          | none => .unknown
      | .shift => .known (.integer (wrapI64 (moment + shiftMs.getD 0)))
      | .extract =>
          match part with
          | some part => extract moment part
          | none => .unknown

def evaluateConvert (target : String) (operand : Outcome) : Outcome :=
  match operand.value with
  | some value => convert floats value target
  | none => .unknown

mutual

def evaluate (row : EventRow) : Node → Outcome
  | .literal value => .known value
  | .field field => read field row
  | .compare op left right => evaluateCompare floats op (evaluate row left) (evaluate row right)
  | .set negated left values => evaluateSet floats negated (evaluate row left) values
  | .text test left pattern => evaluateText test (evaluate row left) pattern
  | .null negated operand => evaluateNull negated (evaluate row operand)
  | .logical op operands => evaluateLogical op (truths row operands)
  | .arith op left right => evaluateArith floats op (evaluate row left) (evaluate row right)
  | .time function operand intervalMs part shiftMs =>
      evaluateTime function (evaluate row operand) intervalMs part shiftMs
  | .convert target operand => evaluateConvert floats target (evaluate row operand)

def truths (row : EventRow) : List Node → List (Option Bool)
  | [] => []
  | node :: nodes => (evaluate row node).truth :: truths row nodes

end

/-- Whether a row satisfies the expression. Unknown is not satisfied. -/
def keeps (node : Node) (row : EventRow) : Bool := (evaluate floats row node).truth.getD false

end

mutual

def collectFields : Node → List Field
  | .literal _ => []
  | .field field => [field]
  | .compare _ left right => collectFields left ++ collectFields right
  | .arith _ left right => collectFields left ++ collectFields right
  | .set _ left _ => collectFields left
  | .text _ left _ => collectFields left
  | .null _ operand => collectFields operand
  | .time _ operand _ _ _ => collectFields operand
  | .convert _ operand => collectFields operand
  | .logical _ operands => collectAll operands

def collectAll : List Node → List Field
  | [] => []
  | node :: nodes => collectFields node ++ collectAll nodes

end

/-- The types a property takes over some rows, each once, in the order of their names. -/
def typesOf (name : String) (rows : List EventRow) : List String :=
  ((rows.filterMap fun row => (row.property name).map typeName).dedup).insertionSort (· ≤ ·)

/-- Whether a reference matches several types without a selection. -/
def conflicts (rows : List EventRow) (field : Field) : Bool :=
  field.valueType.isNone && field.name ∉ builtIn && (typesOf field.name rows).length > 1

def conflict (field : Field) (rows : List EventRow) : QueryError :=
  let types := ", ".intercalate (typesOf field.name rows)
  invalidArgument s!"The property `{field.name}` holds more than one type here: {types}. Say which one this query means."

def checkTypes (node : Node) (rows : List EventRow) : Except QueryError Unit :=
  match (collectFields node).find? (conflicts rows) with
  | some field => .error (conflict field rows)
  | none => .ok ()

mutual

/-- The one field a node pins to one exact value, when it does. Every branch of an `and`
must hold, so one of them is enough; an `or` and a `not` pin nothing. -/
def exactMatch : Node → Option (Field × PropertyValue)
  | .compare .eq (.field field) (.literal value) => some (field, value)
  | .compare .eq (.literal value) (.field field) => some (field, value)
  | .logical .and parts => exactMatchAny parts
  | _ => none

def exactMatchAny : List Node → Option (Field × PropertyValue)
  | [] => none
  | node :: nodes => (exactMatch node).or (exactMatchAny nodes)

end

end TallyOwl.Expr
