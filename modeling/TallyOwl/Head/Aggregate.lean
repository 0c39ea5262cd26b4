import TallyOwl.Head.Expr

/-! Aggregates (`query.rs`). A fold over rows keeps one accumulator for each group and
measure. A tablet folds its own rows and sends what its accumulators hold; a coordinator
takes these states into its own. The arithmetic of the merge is that of a release build,
which wraps. -/
namespace TallyOwl.Query
open Lib RowCodec TallyOwl.Expr Cbor Locate
open Segmented (timeOf TimeBasis)

/-- A group key that orders, so a result comes back in a stable order. -/
inductive GroupKey where
  | absent
  | boolean (v : Bool)
  | integer (v : Int)
  | text (v : String)
  | bytes (v : Bytes)
  deriving DecidableEq

namespace GroupKey

def rank : GroupKey → Nat ×ₗ Int ×ₗ List Nat
  | .absent => toLex (0, toLex (0, []))
  | .boolean v => toLex (1, toLex (v.toNat, []))
  | .integer v => toLex (2, toLex (v, []))
  | .text v => toLex (3, toLex (0, (textBytes v).map UInt8.toNat))
  | .bytes v => toLex (4, toLex (0, v.map UInt8.toNat))

theorem rank_injective : Function.Injective rank := by
  have bytes : Function.Injective (List.map UInt8.toNat) :=
    List.map_injective_iff.mpr fun _ _ same => UInt8.toNat_inj.mp same
  intro a b same
  cases a <;> cases b <;> simp [rank] at same ⊢
  · rename_i v w
    revert same
    revert v w
    decide
  · exact same
  · exact textBytes_injective (bytes same)
  · exact bytes same

instance : LinearOrder GroupKey := LinearOrder.lift' rank rank_injective

variable (display : UInt64 → String)

def of : Option PropertyValue → GroupKey
  | none | some .null => .absent
  | some (.boolean v) => .boolean v
  | some (.integer v) => .integer v
  | some (.unsigned v) => .integer (wrapI64 v)
  | some (.text v) => .text v
  | some (.bytes v) => .bytes v
  | some (.float bits) => .text (display bits)
  | some (.decimal v) => .text v

def value : GroupKey → PropertyValue
  | .absent => .null
  | .boolean v => .boolean v
  | .integer v => .integer v
  | .text v => .text v
  | .bytes v => .bytes v

end GroupKey

inductive Bucketing where
  | fixed (span : Int)
  | calendar (unit : CalendarUnit) (zone : String)
  deriving DecidableEq

/-- What an aggregate computes with: floats, calendars, and the counters and histograms
that no tablet sends a state of. -/
structure Engine where
  floats : Floats
  /-- The start of a calendar period, an `i64`. -/
  startOf : CalendarUnit → String → Int → Int
  startOf_fits : ∀ unit zone moment, InI64 (startOf unit zone moment)
  admits : Measure → List EventRow → EventRow → Except QueryError Unit
  finishSeries : MeasureKind → List EventRow → PropertyValue

structure Plan where
  basis : TimeBasis
  bucketing : Option Bucketing
  dimensions : List Field
  measures : List Measure

inductive Accumulator where
  | count (n : Nat)
  | sum (exact : Option (Int × Nat)) (inexact : UInt64) (sawFloat sawAny : Bool)
  | extreme (largest : Bool) (held : Option PropertyValue)
  | average (total : UInt64) (n : Nat)
  | distinct (seen : OrderedMap GroupKey Unit)
  | series (kind : MeasureKind) (rows : List EventRow)
  | unsupported (kind : MeasureKind)

def distinctCap : Nat := 100000

namespace Accumulator

def new (measure : Measure) : Accumulator :=
  match measure.kind with
  | .count => .count 0
  | .sum => .sum (some (0, 0)) 0 false false
  | .min => .extreme false none
  | .max => .extreme true none
  | .avg => .average 0 0
  | .countDistinct => .distinct ∅
  | .rate => .series .rate []
  | .increase => .series .increase []
  | .histogramMerge => .series .histogramMerge []
  | .quantile => .series .quantile []
  | .countDistinctApprox => .unsupported .countDistinctApprox
  | .quantileApprox => .unsupported .quantileApprox
  | .topK => .unsupported .topK
  | .topKApprox => .unsupported .topKApprox

end Accumulator

def unsupportedMeasure (kind : MeasureKind) : QueryError :=
  let named := match kind with
    | .countDistinctApprox => "count_distinct_approx"
    | .quantile => "quantile"
    | .quantileApprox => "quantile_approx"
    | .histogramMerge => "histogram_merge"
    | .topK => "top_k"
    | .topKApprox => "top_k_approx"
    | .rate => "rate"
    | .increase => "increase"
    | _ => "that measure"
  unsupported s!"This installation answers count, sum, min, max, avg, and count_distinct. `{named}` arrives in a later release."

def needsField (measure : Measure) : QueryError :=
  invalidArgument s!"The measure `{measure.aliasName}` needs a field to read, and this query names none."

def sumsNoNumber (measure : Measure) : QueryError :=
  invalidArgument s!"The measure `{measure.aliasName}` sums a value that is not a number."

def averagesNoNumber (measure : Measure) : QueryError :=
  invalidArgument s!"The measure `{measure.aliasName}` averages a value that is not a number."

def tooManyDistinct (measure : Measure) : QueryError :=
  ⟨.budgetExceeded, s!"The measure `{measure.aliasName}` counts distinct values exactly, and this query passed {distinctCap} of them. Ask for `count_distinct_approx`, which answers at any size and states its error bound."⟩

def decimalParts (text : String) : Option (Int × Nat) := do
  let (negative, rest) := signOf (trim text.toList)
  let (whole, fraction) := splitPoint rest
  if whole = [] ∧ fraction = [] then none
  else
    let digits ← (whole ++ fraction).mapM toDigit
    let mantissa ← mantissaOf digits
    some (if negative then -mantissa else mantissa, fraction.length % 2 ^ 32)

def exactParts : PropertyValue → Option (Int × Nat)
  | .integer v => some (v, 0)
  | .unsigned v => some (v, 0)
  | .decimal text => decimalParts text
  | _ => none

/-- Add two exact numbers at the wider of their scales, where all of it fits. -/
def addExact (left right : Int × Nat) : Option (Int × Nat) := do
  let scale := max left.2 right.2
  let a ← lift scale left
  let b ← lift scale right
  let sum ← checkI128 (a + b)
  some (sum, scale)

section
variable (engine : Engine)

def replaces (largest : Bool) (value : PropertyValue) (held : Option PropertyValue) : Bool :=
  match held with
  | none => true
  | some current =>
      match compare engine.floats value current with
      | some .gt => largest
      | some .lt => !largest
      | _ => false

def towards (largest : Bool) (held : Option PropertyValue) (value : PropertyValue) :
    Option PropertyValue :=
  if replaces engine largest value held then some value else held

/-- One value into the accumulator of a measure that reads a field. -/
def Accumulator.addValue (measure : Measure) (value : PropertyValue) :
    Accumulator → Except QueryError Accumulator
  | .sum exact inexact sawFloat _ =>
      match value with
      | .float bits => .ok (.sum exact (engine.floats.add inexact bits) true true)
      | other =>
          match exactParts other with
          | some parts => .ok (.sum (exact.bind fun held => addExact held parts)
              (engine.floats.add inexact ((asFloat engine.floats other).getD 0)) sawFloat true)
          | none => .error (sumsNoNumber measure)
  | .extreme largest held => .ok (.extreme largest (towards engine largest held value))
  | .average total n =>
      match asFloat engine.floats value with
      | some number => .ok (.average (engine.floats.add total number) ((n + 1) % 2 ^ 64))
      | none => .error (averagesNoNumber measure)
  | .distinct seen =>
      let key := GroupKey.of engine.floats.display (some value)
      if seen.entries.length ≥ distinctCap ∧ seen.get? key = none then .error (tooManyDistinct measure)
      else .ok (.distinct (seen.insert key ()))
  | other => .ok other

def Accumulator.add (measure : Measure) (held : Accumulator) (row : EventRow) :
    Except QueryError Accumulator :=
  match held with
  | .unsupported kind => .error (unsupportedMeasure kind)
  | .count n => .ok (.count ((n + 1) % 2 ^ 64))
  | .series kind rows => (engine.admits measure rows row).map fun _ => .series kind (rows ++ [row])
  | held =>
      match measure.field with
      | none => .error (needsField measure)
      | some field =>
          match (read field row).value with
          | none => .ok held
          | some value => held.addValue engine measure value

def Accumulator.finish : Accumulator → PropertyValue
  | .count n => .unsigned n
  | .sum exact inexact sawFloat sawAny =>
      if !sawAny then .null
      else
        match sawFloat, exact with
        | false, some (mantissa, scale) => .decimal (render mantissa scale)
        | _, _ => .float inexact
  | .extreme _ held => held.getD .null
  | .average total n => if n = 0 then .null else .float (engine.floats.div total (engine.floats.ofU64 n))
  | .distinct seen => .unsigned seen.entries.length
  | .series kind rows => engine.finishSeries kind rows
  | .unsupported _ => .null

end

section
variable (engine : Engine)

def propertyToCbor (value : PropertyValue) : Value :=
  let map : MapBuilder := MapBuilder.put ∅ "k" (.text (typeName value))
  MapBuilder.build <|
    match value with
    | .null => map
    | .boolean v => map.put "v" (.bool v)
    | .integer v => map.put "v" (Value.integer v)
    | .unsigned v => map.put "v" (.unsigned v)
    | .float bits => map.put "v" (.float bits)
    | .decimal v => map.put "v" (.text v)
    | .text v => map.put "v" (.text v)
    | .bytes v => map.put "v" (.bytes v)

def asBool : Value → Option Bool
  | .bool v => some v
  | _ => none

def asFloatBits : Value → Option UInt64
  | .float bits => some bits
  | .unsigned v => some (engine.floats.ofU64 v)
  | .negative v => some (engine.floats.ofI64 v)
  | _ => none

def cborToProperty (value : Value) : Option PropertyValue := do
  let kind ← (value.field "k").bind Value.asText
  let held := value.field "v"
  match kind with
  | "null" => some .null
  | "boolean" => (held.bind asBool).map .boolean
  | "integer" => (held.bind Value.asInteger).map .integer
  | "unsigned" => (held.bind Value.asUnsigned).map .unsigned
  | "float" => (held.bind (asFloatBits engine)).map .float
  | "decimal" => (held.bind Value.asText).map .decimal
  | "text" => (held.bind Value.asText).map .text
  | "bytes" => (held.bind Value.asBytes).map .bytes
  | _ => none

/-- `str::parse::<i128>`. -/
def parseI128 (text : String) : Option Int :=
  (parseSigned text.toList).filter fun n => decide (InI128 n)

def wrapI128 (n : Int) : Int := n.bmod (2 ^ 128)

namespace Accumulator

/-- What an accumulator holds, as a value another one can take back. -/
def partialState : Accumulator → Option Value
  | .count n => some <| MapBuilder.build <|
      ((∅ : MapBuilder).put "t" (.text "count")).put "n" (.unsigned n)
  | .sum exact inexact sawFloat sawAny =>
      let map := ((((∅ : MapBuilder).put "t" (.text "sum")).put "f" (.float inexact)).put "sf"
        (.bool sawFloat)).put "sa" (.bool sawAny)
      some <| MapBuilder.build <|
        match exact with
        | some (units, scale) => (map.put "u" (.text (toString units))).put "s" (.unsigned scale)
        | none => map
  | .extreme largest held =>
      let map := ((∅ : MapBuilder).put "t" (.text "extreme")).put "l" (.bool largest)
      some <| MapBuilder.build <|
        match held with
        | some held => map.put "v" (propertyToCbor held)
        | none => map
  | .average total n => some <| MapBuilder.build <|
      (((∅ : MapBuilder).put "t" (.text "average")).put "s" (.float total)).put "n" (.unsigned n)
  | .distinct seen => some <| MapBuilder.build <|
      ((∅ : MapBuilder).put "t" (.text "distinct")).put "v"
        (.array (seen.entries.map fun e => propertyToCbor e.1.value))
  | .series _ _ | .unsupported _ => none

def mergeExact (held arrived : Int × Nat) : Int × Nat :=
  let widest := max held.2 arrived.2
  let lift (units : Int) (scale : Nat) : Int := wrapI128 (units * wrapI128 (10 ^ (widest - scale)))
  (wrapI128 (lift held.1 held.2 + lift arrived.1 arrived.2), widest)

def strangeState (kind : String) : QueryError :=
  ⟨.internal, s!"A tablet sent a partial state of kind `{kind}` that does not belong to the measure it answered. This is a defect in TallyOwl rather than in the query."⟩

def arrivedExact (state : Value) : Option (Int × Nat) := do
  let units ← ((state.field "u").bind Value.asText).bind parseI128
  let scale ← (state.field "s").bind Value.asUnsigned
  some (units, scale % 2 ^ 32)

def mergePartial (held : Accumulator) (state : Value) : Except QueryError Accumulator :=
  let kind := ((state.field "t").bind Value.asText).getD ""
  match held, kind with
  | .count n, "count" =>
      .ok (.count ((n + ((state.field "n").bind Value.asUnsigned).getD 0) % 2 ^ 64))
  | .sum exact inexact sawFloat sawAny, "sum" =>
      .ok (.sum
        (match exact, arrivedExact state with
          | some held, some arrived => some (mergeExact held arrived)
          | _, _ => none)
        (engine.floats.add inexact (((state.field "f").bind (asFloatBits engine)).getD 0))
        (sawFloat || ((state.field "sf").bind asBool).getD false)
        (sawAny || ((state.field "sa").bind asBool).getD false))
  | .extreme largest held, "extreme" =>
      match (state.field "v").bind (cborToProperty engine) with
      | some arrived => .ok (.extreme largest (towards engine largest held arrived))
      | none => .ok (.extreme largest held)
  | .average total n, "average" =>
      .ok (.average (engine.floats.add total (((state.field "s").bind (asFloatBits engine)).getD 0))
        ((n + ((state.field "n").bind Value.asUnsigned).getD 0) % 2 ^ 64))
  | .distinct seen, "distinct" =>
      let arrived := (((state.field "v").bind Value.asArray).getD []).filterMap (cborToProperty engine)
      .ok (.distinct (arrived.foldl
        (fun seen value => seen.insert (GroupKey.of engine.floats.display (some value)) ()) seen))
  | _, other => .error (strangeState other)

end Accumulator

end

section
variable (engine : Engine) (plan : Plan)

abbrev Groups := OrderedMap (List GroupKey) (List Accumulator)

def Bucketing.bucketOf (moment : Int) : Bucketing → Int
  | .fixed span => wrapI64 (moment - moment % span)
  | .calendar unit zone => engine.startOf unit zone moment

def keyOf (row : EventRow) : List GroupKey :=
  (plan.bucketing.toList.map fun bucketing =>
      .integer (bucketing.bucketOf engine (timeOf row plan.basis))) ++
    plan.dimensions.map fun field => .of engine.floats.display (read field row).value

def started : List Accumulator := plan.measures.map Accumulator.new

def addAll (row : EventRow) : List Measure → List Accumulator → Except QueryError (List Accumulator)
  | measure :: measures, held :: rest => do
      let first ← held.add engine measure row
      let others ← addAll row measures rest
      .ok (first :: others)
  | _, _ => .ok []

def foldRow (groups : Groups) (row : EventRow) : Except QueryError Groups := do
  let key := keyOf engine plan row
  let entry ← addAll engine row plan.measures ((groups.get? key).getD (started plan))
  .ok (groups.insert key entry)

def foldRows (groups : Groups) (rows : List EventRow) : Except QueryError Groups :=
  rows.foldlM (foldRow engine plan) groups

def encodeGroup (group : List GroupKey × List Accumulator) : Option Value := do
  let states ← group.2.mapM Accumulator.partialState
  some <| MapBuilder.build <|
    ((∅ : MapBuilder).put "k" (.array (group.1.map fun part => propertyToCbor part.value))).put "s"
      (.array states)

/-- Every group's partial state, as bytes a coordinator can merge. -/
def encodePartialGroups (groups : Groups) : Option Bytes := do
  let out ← groups.entries.mapM encodeGroup
  some (encode (.array out))

def wrongStates (states measures : Nat) : QueryError :=
  ⟨.internal, s!"A tablet answered with {states} partial states for {measures} measures. This is a defect in TallyOwl rather than in the query."⟩

def mergeAll : List Accumulator → List Value → Except QueryError (List Accumulator)
  | held :: rest, state :: states => do
      let first ← held.mergePartial engine state
      let others ← mergeAll rest states
      .ok (first :: others)
  | _, _ => .ok []

def mergeGroup (into : Groups) (group : Value) : Except QueryError Groups :=
  let key := (((group.field "k").bind Value.asArray).getD []).map fun part =>
    GroupKey.of engine.floats.display (cborToProperty engine part)
  let states := ((group.field "s").bind Value.asArray).getD []
  if states.length ≠ plan.measures.length then
    .error (wrongStates states.length plan.measures.length)
  else do
    let entry ← mergeAll engine ((into.get? key).getD (started plan)) states
    .ok (into.insert key entry)

/-- Take one tablet's partial states into the groups being built. -/
def mergePartialGroups (into : Groups) (bytes : Bytes) : Except QueryError Groups :=
  match decode bytes with
  | .error e => .error ⟨.internal, s!"A partial aggregate could not be read: {e.display}"⟩
  | .ok decoded => (decoded.asArray.getD []).foldlM (mergeGroup engine plan) into

def partialOf (rows : List EventRow) : Except QueryError (Option Bytes) := do
  let groups ← foldRows engine plan ∅ rows
  .ok (encodePartialGroups groups)

/-- The groups that tablets' partial states merge to, in the order of their replies. -/
def pushedDown (tablets : List (List EventRow)) : Except QueryError (Option Groups) := do
  let states ← tablets.mapM (partialOf engine plan)
  match states.mapM id with
  | none => .ok none
  | some states => do
      let groups ← states.foldlM (mergePartialGroups engine plan) ∅
      .ok (some groups)

def finished (groups : Groups) : List (List GroupKey × List PropertyValue) :=
  groups.entries.map fun group => (group.1, group.2.map (·.finish engine))

end

end TallyOwl.Query
