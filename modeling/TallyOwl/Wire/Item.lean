import TallyOwl.Store.Row

/-! One telemetry item as it travels (`tallyowl-ingest.csil`, `tallyowl-wire`): an envelope and the
payload its kind selects. A typed value names its kind and has one optional field for each. -/
namespace TallyOwl.Wire
open Lib

def isWhitespace (c : Char) : Bool :=
  let n := c.toNat
  (9 ≤ n && n ≤ 13) || (8192 ≤ n && n ≤ 8202) ||
    [32, 133, 160, 5760, 8232, 8233, 8239, 8287, 12288].contains n

def isBlank (text : String) : Bool := text.toList.all isWhitespace

inductive TelemetryKind where
  | event | pageView | sessionStart | sessionEnd | sessionHeartbeat | interaction
  | featureExposure | identify | aliasOf | group | conversion | error | span | metricPoint
  | campaignTouch | campaignCost
  deriving DecidableEq

def kindName : TelemetryKind → String
  | .event => "event"
  | .pageView => "page-view"
  | .sessionStart => "session-start"
  | .sessionEnd => "session-end"
  | .sessionHeartbeat => "session-heartbeat"
  | .interaction => "interaction"
  | .featureExposure => "feature-exposure"
  | .identify => "identify"
  | .aliasOf => "alias"
  | .group => "group"
  | .conversion => "conversion"
  | .error => "error"
  | .span => "span"
  | .metricPoint => "metric-point"
  | .campaignTouch => "campaign-touch"
  | .campaignCost => "campaign-cost"

theorem kindName_injective : Function.Injective kindName := by
  intro a b same
  cases a <;> cases b <;> first | rfl | (exact absurd same (by decide))

inductive PropertyOrigin where
  | client | driver | collector
  deriving DecidableEq

def originName : PropertyOrigin → String
  | .client => "client"
  | .driver => "driver"
  | .collector => "collector"

inductive TypedValueKind where
  | null | bool | int | uint | float | decimal | text | bytes
  deriving DecidableEq

structure CsilDecimal where
  exponent : Int
  mantissa : Int
  deriving DecidableEq

structure TypedValue where
  kind : TypedValueKind
  boolValue : Option Bool
  intValue : Option Int
  uintValue : Option Nat
  floatValue : Option UInt64
  decimalValue : Option CsilDecimal
  textValue : Option String
  bytesValue : Option Bytes
  deriving DecidableEq

inductive Value where
  | null
  | boolean (v : Bool)
  | integer (v : Int)
  | unsigned (v : Nat)
  | float (bits : UInt64)
  | decimal (exponent mantissa : Int)
  | text (v : String)
  | bytes (v : Bytes)
  deriving DecidableEq

structure Property where
  key : String
  value : TypedValue
  origin : PropertyOrigin
  deriving DecidableEq

inductive MeasurementKind where
  | float | decimal | int
  deriving DecidableEq

structure Measurement where
  key : String
  kind : MeasurementKind
  floatValue : Option UInt64
  decimalValue : Option CsilDecimal
  intValue : Option Int
  unit : Option String
  deriving DecidableEq

def maxDecimalExponent : Int := 38

/-- Refuse a decimal whose exponent is outside the permitted range. -/
def checkDecimal (exponent : Int) : Except String Unit :=
  if -maxDecimalExponent ≤ exponent ∧ exponent ≤ maxDecimalExponent then .ok ()
  else .error s!"An exact number has the exponent {exponent}, and the limit is {maxDecimalExponent} in each direction. Send a number with fewer digits."

def blank (kind : TypedValueKind) : TypedValue :=
  ⟨kind, none, none, none, none, none, none, none⟩

def write : Value → TypedValue
  | .null => blank .null
  | .boolean v => { blank .bool with boolValue := some v }
  | .integer v => { blank .int with intValue := some v }
  | .unsigned v => { blank .uint with uintValue := some v }
  | .float bits => { blank .float with floatValue := some bits }
  | .decimal exponent mantissa => { blank .decimal with decimalValue := some ⟨exponent, mantissa⟩ }
  | .text v => { blank .text with textValue := some v }
  | .bytes v => { blank .bytes with bytesValue := some v }

def missingValue (named : String) : String :=
  s!"A value says it holds {named} and carries no {named}. Send the value, or say the value is empty."

def held {α : Type} (value : Option α) (named : String) : Except String α :=
  match value with
  | some v => .ok v
  | none => .error (missingValue named)

/-- A kind that names a field the message did not carry is a rejection. -/
def read (value : TypedValue) : Except String Value :=
  match value.kind with
  | .null => .ok .null
  | .bool => (held value.boolValue "a true or false").map .boolean
  | .int => (held value.intValue "a whole number").map .integer
  | .uint => (held value.uintValue "a whole number that is not negative").map .unsigned
  | .float => (held value.floatValue "a number").map .float
  | .decimal => do
      let d ← held value.decimalValue "an exact number"
      checkDecimal d.exponent
      return .decimal d.exponent d.mantissa
  | .text => (held value.textValue "text").map .text
  | .bytes => (held value.bytesValue "data").map .bytes

def property (key : String) (value : Value) (origin : PropertyOrigin) : Property :=
  ⟨key, write value, origin⟩

def missingNumber : String :=
  "A measurement says which kind of number it holds and carries no number. Send the number."

def readMeasurement (m : Measurement) : Except String Value :=
  match m.kind with
  | .float => (m.floatValue.map Value.float).elim (.error missingNumber) .ok
  | .int => (m.intValue.map Value.integer).elim (.error missingNumber) .ok
  | .decimal => do
      let d ← m.decimalValue.elim (.error missingNumber) .ok
      checkDecimal d.exponent
      return .decimal d.exponent d.mantissa

inductive ConsentState where
  | granted | denied | absent
  deriving DecidableEq

structure Consent where
  marketing : ConsentState
  analytics : ConsentState
  policyVersion : Option String
  deriving DecidableEq

structure Envelope where
  eventId : Bytes
  kind : TelemetryKind
  schemaVersion : Nat
  occurredAt : Int
  observedAt : Option Int
  receivedAt : Option Int
  workspaceId : Option Bytes
  projectId : Option Bytes
  sourceId : Option Bytes
  sequence : Option Nat
  release : Option String
  serviceName : Option String
  requestId : Option String
  sessionId : Option String
  endUserId : Option String
  anonymousId : Option String
  traceId : Option Bytes
  spanId : Option Bytes
  consent : Option Consent
  sdkName : String
  sdkVersion : String
  properties : List Property
  measurements : Option (List Measurement)
  deriving DecidableEq

def Envelope.bare (eventId : Bytes) (kind : TelemetryKind) (occurredAt : Int) : Envelope where
  eventId := eventId
  kind := kind
  schemaVersion := 1
  occurredAt := occurredAt
  observedAt := none
  receivedAt := none
  workspaceId := none
  projectId := none
  sourceId := none
  sequence := none
  release := none
  serviceName := none
  requestId := none
  sessionId := none
  endUserId := none
  anonymousId := none
  traceId := none
  spanId := none
  consent := none
  sdkName := ""
  sdkVersion := ""
  properties := []
  measurements := none

structure EventPayload where
  name : String
  route : Option String
  pageTitle : Option String
  deriving DecidableEq

structure CampaignParameters where
  source : Option String
  medium : Option String
  campaign : Option String
  term : Option String
  content : Option String
  clickId : Option String
  deriving DecidableEq

structure PageViewPayload where
  route : String
  pageTitle : Option String
  referrer : Option String
  campaign : Option CampaignParameters
  deriving DecidableEq

structure SessionStartPayload where
  entryRoute : Option String
  deriving DecidableEq

inductive SessionEndReason where
  | explicit | timeout | maximumLifetime
  deriving DecidableEq

structure SessionEndPayload where
  reason : SessionEndReason
  deriving DecidableEq

structure InteractionPayload where
  target : String
  action : String
  deriving DecidableEq

structure FeatureExposurePayload where
  feature : String
  variant : String
  deriving DecidableEq

structure IdentifyPayload where
  endUserId : String
  deriving DecidableEq

structure AliasPayload where
  fromId : String
  toId : String
  deriving DecidableEq

structure GroupPayload where
  groupId : String
  groupKind : Option String
  deriving DecidableEq

structure ConversionPayload where
  goal : String
  value : Option CsilDecimal
  currency : Option String
  orderId : Option String
  campaign : Option CampaignParameters
  touchEventId : Option Bytes
  deriving DecidableEq

structure StackFrame where
  module : Option String
  function : Option String
  file : Option String
  line : Option Nat
  inApp : Bool
  deriving DecidableEq

inductive Severity where
  | fatal | error | warning | info
  deriving DecidableEq

structure ErrorPayload where
  errorType : String
  message : String
  handled : Bool
  severity : Severity
  mechanism : Option String
  runtime : Option String
  frames : Option (List StackFrame)
  breadcrumbs : Option (List Bytes)
  deriving DecidableEq

inductive SpanKind where
  | internal | server | client | producer | consumer
  deriving DecidableEq

inductive SpanStatus where
  | ok | error | unset
  deriving DecidableEq

structure SpanLink where
  traceId : Bytes
  spanId : Bytes
  deriving DecidableEq

structure SpanPayload where
  operation : String
  kind : SpanKind
  startAt : Int
  durationMs : Int
  status : SpanStatus
  resource : Option String
  parentSpanId : Option Bytes
  links : Option (List SpanLink)
  errorEventId : Option Bytes
  samplingReason : Option String
  deriving DecidableEq

inductive MetricKind where
  | counter | gauge | histogram
  deriving DecidableEq

inductive Temporality where
  | delta | cumulative
  deriving DecidableEq

structure HistogramValue where
  count : Nat
  sum : UInt64
  bounds : List UInt64
  counts : List Nat
  deriving DecidableEq

structure MetricPointPayload where
  metricName : String
  metricKind : MetricKind
  unit : Option String
  description : Option String
  monotonic : Bool
  temporality : Temporality
  startAt : Int
  endAt : Int
  labels : List Property
  numberValue : Option UInt64
  histogramValue : Option HistogramValue
  exemplarTraceId : Option Bytes
  deriving DecidableEq

structure CampaignTouchPayload where
  campaign : CampaignParameters
  referrer : Option String
  referrerDomain : Option String
  landingRoute : Option String
  deriving DecidableEq

structure CampaignCostPayload where
  campaign : String
  platform : Option String
  cost : CsilDecimal
  currency : String
  periodStart : Int
  periodEnd : Int
  deriving DecidableEq

structure TelemetryItem where
  envelope : Envelope
  event : Option EventPayload
  pageView : Option PageViewPayload
  sessionStart : Option SessionStartPayload
  sessionEnd : Option SessionEndPayload
  interaction : Option InteractionPayload
  featureExposure : Option FeatureExposurePayload
  identify : Option IdentifyPayload
  aliasOf : Option AliasPayload
  group : Option GroupPayload
  conversion : Option ConversionPayload
  error : Option ErrorPayload
  span : Option SpanPayload
  metricPoint : Option MetricPointPayload
  campaignTouch : Option CampaignTouchPayload
  campaignCost : Option CampaignCostPayload
  deriving DecidableEq

def emptyItem (envelope : Envelope) : TelemetryItem :=
  ⟨envelope, none, none, none, none, none, none, none, none, none, none, none, none, none, none, none⟩

structure Batch where
  batchId : Bytes
  items : List TelemetryItem
  commonProperties : Option (List Property)
  sealedAt : Int
  deriving DecidableEq

/-- Names an application cannot set (`scrub.rs`). -/
def protectedKeys : List String :=
  ["region", "env", "cell", "installation", "request_id", "session_id", "trace_id", "event_id"]

end TallyOwl.Wire
