import TallyOwl.Collector.Policy
import TallyOwl.Collector.Series
import TallyOwl.Wire.Scrub

/-! The projection of one wire item into one stored row (`project.rs`). The text of a float, the
fingerprint of an error, the host of an address and the classifier of a campaign touch are
parameters. -/
namespace TallyOwl.Project
open Lib Wire

section

inductive Payload where
  | sessionHeartbeat
  | event (p : EventPayload)
  | pageView (p : PageViewPayload)
  | sessionStart (p : SessionStartPayload)
  | sessionEnd (p : SessionEndPayload)
  | interaction (p : InteractionPayload)
  | featureExposure (p : FeatureExposurePayload)
  | identify (p : IdentifyPayload)
  | aliasOf (p : AliasPayload)
  | group (p : GroupPayload)
  | conversion (p : ConversionPayload)
  | error (p : ErrorPayload)
  | span (p : SpanPayload)
  | metricPoint (p : MetricPointPayload)
  | campaignTouch (p : CampaignTouchPayload)
  | campaignCost (p : CampaignCostPayload)
  deriving DecidableEq

variable (item : TelemetryItem)

/-- Each payload field, whether it is there and the kind it belongs to. -/
def fields : List (Bool × String) :=
  [(item.event.isSome, "event"), (item.pageView.isSome, "page-view"),
    (item.sessionStart.isSome, "session-start"), (item.sessionEnd.isSome, "session-end"),
    (item.interaction.isSome, "interaction"), (item.featureExposure.isSome, "feature-exposure"),
    (item.identify.isSome, "identify"), (item.aliasOf.isSome, "alias"), (item.group.isSome, "group"),
    (item.conversion.isSome, "conversion"), (item.error.isSome, "error"), (item.span.isSome, "span"),
    (item.metricPoint.isSome, "metric-point"), (item.campaignTouch.isSome, "campaign-touch"),
    (item.campaignCost.isSome, "campaign-cost")]

def present : List String := ((fields item).filter fun x => x.1).map fun x => x.2

def firstPayload : Option Payload :=
  (item.event.map .event) <|> (item.pageView.map .pageView) <|> (item.sessionStart.map .sessionStart) <|>
    (item.sessionEnd.map .sessionEnd) <|> (item.interaction.map .interaction) <|>
    (item.featureExposure.map .featureExposure) <|> (item.identify.map .identify) <|>
    (item.aliasOf.map .aliasOf) <|> (item.group.map .group) <|> (item.conversion.map .conversion) <|>
    (item.error.map .error) <|> (item.span.map .span) <|> (item.metricPoint.map .metricPoint) <|>
    (item.campaignTouch.map .campaignTouch) <|> (item.campaignCost.map .campaignCost)

def several (kinds : List String) : String :=
  let joined := " and ".intercalate kinds
  s!"One item described itself as {joined} at the same time. An item holds one of them."

def nothing (declared : String) : String :=
  s!"One item says it is {declared} and carries no {declared} details."

def another (declared found : String) : String :=
  s!"One item says it is {declared} and carries {found} details instead."

def payload : Except String Payload :=
  let declared := kindName item.envelope.kind
  match present item with
  | [] => if item.envelope.kind = .sessionHeartbeat then .ok .sessionHeartbeat else .error (nothing declared)
  | [found] =>
      if declared ≠ found then .error (another declared found)
      else (firstPayload item).elim (.error (nothing declared)) .ok
  | kinds => .error (several kinds)

def payloadName (payload : Payload) (kind : TelemetryKind) : String :=
  match payload with
  | .event event => event.name
  | .pageView page => page.route
  | .interaction interaction => s!"{interaction.target}:{interaction.action}"
  | .featureExposure exposure => exposure.feature
  | .conversion conversion => conversion.goal
  | .error error => error.errorType
  | .span span => span.operation
  | .metricPoint metric => metric.metricName
  | .campaignCost cost => cost.campaign
  | .campaignTouch touch => touch.campaign.campaign.getD "campaign-touch"
  | .group group => group.groupId
  | _ => kindName kind

end

structure Fingerprint where
  digest : String
  rule : String
  version : Nat
  inputs : List String

structure Touch where
  source : Option String
  medium : Option String
  campaign : Option String
  content : Option String
  term : Option String
  clickId : Option String
  referrerDomain : Option String

structure Projector where
  floatText : UInt64 → String
  formatFloat : UInt64 → String
  fingerprint : ErrorPayload → Fingerprint
  hostOf : String → Option String
  classify : Touch → String

section

abbrev Pair := String × PropertyValue

def text (key value : String) : Pair := (key, .text value)

def optional (key : String) (value : Option String) : List Pair := (value.map (text key)).toList

def campaignProperties (c : CampaignParameters) : List Pair :=
  optional "campaign_source" c.source ++ optional "campaign_medium" c.medium ++
    optional "campaign" c.campaign ++ optional "campaign_term" c.term ++
    optional "campaign_content" c.content ++ optional "campaign_click_id" c.clickId

def metricFields : List String :=
  ["metric_name", "metric_kind", "temporality", "monotonic", "value", "unit", "start_at", "end_at",
    "series_key", "histogram_count", "histogram_sum", "histogram_bounds", "histogram_counts",
    "exemplar_trace_id"]

def toStoreValue : Value → PropertyValue
  | .null => .null
  | .boolean v => .boolean v
  | .integer v => .integer v
  | .unsigned v => .unsigned v
  | .float bits => .float bits
  | .decimal exponent mantissa => .decimal (decimalText exponent mantissa)
  | .text v => .text v
  | .bytes v => .bytes v

/-- A label that would take the name of a metric point's own field is prefixed. -/
def labelProperty (label : Property) : Option Pair :=
  match read label.value with
  | .error _ => none
  | .ok value =>
      some (if metricFields.contains label.key then s!"label.{label.key}" else label.key, toStoreValue value)

def SessionEndReason.name : SessionEndReason → String
  | .explicit => "explicit"
  | .timeout => "timeout"
  | .maximumLifetime => "maximum-lifetime"

def Severity.name : Severity → String
  | .fatal => "fatal"
  | .error => "error"
  | .warning => "warning"
  | .info => "info"

def SpanKind.name : SpanKind → String
  | .internal => "internal"
  | .server => "server"
  | .client => "client"
  | .producer => "producer"
  | .consumer => "consumer"

def SpanStatus.name : SpanStatus → String
  | .ok => "ok"
  | .error => "error"
  | .unset => "unset"

def Temporality.name : Temporality → String
  | .delta => "delta"
  | .cumulative => "cumulative"

def ConsentState.name : ConsentState → String
  | .granted => "granted"
  | .denied => "denied"
  | .absent => "absent"

variable (pr : Projector)

def frameProperties (frames : List StackFrame) : List Pair :=
  let top := (frames.find? fun frame => frame.inApp).orElse fun _ => frames.head?
  ("frame_count", .unsigned frames.length) ::
    (optional "top_module" (top.bind fun f => f.module) ++
      optional "top_function" (top.bind fun f => f.function) ++
      optional "top_file" ((top.bind fun f => f.file).map Scrub.path))

def errorProperties (e : ErrorPayload) : List Pair :=
  let group := pr.fingerprint e
  [text "error_type" e.errorType, text "message" e.message, ("handled", .boolean e.handled),
    text "severity" (Severity.name e.severity)] ++
  (e.frames.map frameProperties).getD [] ++
  (e.breadcrumbs.map fun b => ("breadcrumb_count", PropertyValue.unsigned b.length)).toList ++
  [text "error_group" group.digest, text "error_group_rule" group.rule,
    ("error_group_version", .unsigned group.version),
    text "error_group_inputs" (" | ".intercalate group.inputs)]

def spanProperties (s : SpanPayload) : List Pair :=
  [text "operation" s.operation, text "span_kind" (SpanKind.name s.kind),
    text "status" (SpanStatus.name s.status), ("duration_ms", .integer s.durationMs)] ++
  optional "resource" s.resource ++ [("start_at", .integer s.startAt)] ++
  optional "parent_span_id" (s.parentSpanId.map hex) ++
  optional "error_event_id" (s.errorEventId.map hex) ++
  optional "sampling_reason" s.samplingReason ++
  (s.links.map fun links => ("link_count", PropertyValue.unsigned links.length)).toList

def histogramProperties (h : HistogramValue) : List Pair :=
  [("histogram_count", .unsigned h.count), ("histogram_sum", .float h.sum),
    text "histogram_bounds" (",".intercalate (h.bounds.map pr.formatFloat)),
    text "histogram_counts" (",".intercalate (h.counts.map toString))]

def metricProperties (m : MetricPointPayload) : List Pair :=
  [text "metric_name" m.metricName, text "metric_kind" m.metricKind.name,
    text "temporality" (Temporality.name m.temporality), ("monotonic", .boolean m.monotonic)] ++
  (m.numberValue.map fun v => ("value", PropertyValue.float v)).toList ++
  optional "unit" m.unit ++
  [("start_at", .integer m.startAt), ("end_at", .integer m.endAt),
    text "series_key" (seriesKey pr.floatText m)] ++
  (m.histogramValue.map (histogramProperties pr)).getD [] ++
  optional "exemplar_trace_id" (m.exemplarTraceId.map hex) ++ m.labels.filterMap labelProperty

def decimalProperty (key : String) (d : CsilDecimal) : Pair := (key, .decimal (decimalText d.exponent d.mantissa))

def payloadProperties : Payload → List Pair
  | .sessionHeartbeat => []
  | .event event => optional "route" event.route ++ optional "page_title" event.pageTitle
  | .pageView page =>
      text "route" page.route :: (optional "page_title" page.pageTitle ++
        optional "referrer" page.referrer ++ (page.campaign.map campaignProperties).getD [])
  | .sessionStart start => optional "entry_route" start.entryRoute
  | .sessionEnd ended => [text "reason" (SessionEndReason.name ended.reason)]
  | .interaction interaction => [text "target" interaction.target, text "action" interaction.action]
  | .featureExposure exposure => [text "feature" exposure.feature, text "variant" exposure.variant]
  | .identify identify => [text "end_user_id" identify.endUserId]
  | .aliasOf a => [text "from_id" a.fromId, text "to_id" a.toId]
  | .group group => text "group_id" group.groupId :: optional "group_kind" group.groupKind
  | .conversion conversion =>
      text "goal" conversion.goal :: ((conversion.value.map (decimalProperty "value")).toList ++
        optional "currency" conversion.currency ++ optional "order_id" conversion.orderId ++
        (conversion.campaign.map campaignProperties).getD [] ++
        optional "touch_event_id" (conversion.touchEventId.map hex))
  | .error e => errorProperties pr e
  | .span s => spanProperties s
  | .metricPoint m => metricProperties pr m
  | .campaignTouch touch =>
      campaignProperties touch.campaign ++ optional "referrer" touch.referrer ++
        optional "referrer_domain" (touch.referrerDomain.orElse fun _ => touch.referrer.bind pr.hostOf) ++
        optional "landing_route" touch.landingRoute
  | .campaignCost cost =>
      text "campaign" cost.campaign :: (optional "platform" cost.platform ++
        [decimalProperty "cost" cost.cost, text "currency" cost.currency])

end

section

abbrev Properties := List (String × PropertyValue × String)

def setProperty (key : String) (value : PropertyValue) (origin : String) : Properties → Properties
  | [] => [(key, value, origin)]
  | x :: rest =>
      if key < x.1 then (key, value, origin) :: x :: rest
      else if key = x.1 then (key, value, origin) :: rest
      else x :: setProperty key value origin rest

def setAll (origin : String) (pairs : List Pair) (properties : Properties) : Properties :=
  pairs.foldl (fun ps x => setProperty x.1 x.2 origin ps) properties

def toId (bytes : Bytes) : Option Id := if bytes.length = 16 then some (Id.ofBytes bytes) else none

def unreadable (key message : String) : String := s!"The property `{key}` could not be read. {message}"

def projectProperty (p : Property) : Except String (PropertyValue × String) :=
  match read p.value with
  | .ok value => .ok (toStoreValue value, originName p.origin)
  | .error message => .error (unreadable p.key message)

def envelopeFacts (e : Envelope) : List Pair :=
  optional "span_id" (e.spanId.map hex) ++ optional "end_user_id" e.endUserId ++
    optional "anonymous_id" e.anonymousId ++
    (e.consent.map fun c =>
      [text "consent_marketing" (ConsentState.name c.marketing),
        text "consent_analytics" (ConsentState.name c.analytics)] ++
      optional "consent_policy_version" c.policyVersion).getD []

def addProperty (ps : Properties) (p : Property) : Except String Properties := do
  let (value, origin) ← projectProperty p
  return setProperty p.key value origin ps

def addMeasurement (ps : Properties) (m : Measurement) : Except String Properties := do
  let value ← readMeasurement m
  let named := setProperty m.key (toStoreValue value) "client" ps
  return (m.unit.map fun unit => setProperty s!"{m.key}_unit" (.text unit) "client" named).getD named

variable (pr : Projector)

def trimmed (properties : Properties) (key : String) : Option String :=
  match properties.lookup key with
  | some (.text value, _) =>
      let inner := ((value.toList.dropWhile isWhitespace).reverse.dropWhile isWhitespace).reverse
      if inner = [] then none else some (.ofList inner)
  | _ => none

def Touch.of (properties : Properties) : Touch where
  source := trimmed properties "campaign_source"
  medium := trimmed properties "campaign_medium"
  campaign := trimmed properties "campaign"
  content := trimmed properties "campaign_content"
  term := trimmed properties "campaign_term"
  clickId := trimmed properties "campaign_click_id"
  referrerDomain := (trimmed properties "referrer_domain").orElse fun _ =>
    (trimmed properties "referrer").bind pr.hostOf

def Touch.hasCampaign (t : Touch) : Bool :=
  t.source.isSome || t.medium.isSome || t.campaign.isSome || t.clickId.isSome

def derivedProperties (t : Touch) : List Pair :=
  [text "campaign_channel" (pr.classify t), ("campaign_classifier_version", .unsigned 1)] ++
    optional "referrer_domain" t.referrerDomain

/-- Every property of the row: the envelope's, then what overrides them. -/
def propertiesOf (e : Envelope) (payload : Payload) : Except String Properties := do
  let sent ← e.properties.foldlM addProperty (setAll "client" (envelopeFacts e) [])
  let measured ← (e.measurements.getD []).foldlM addMeasurement sent
  let own := setAll "client" (payloadProperties pr payload) measured
  let touch := Touch.of pr own
  return if e.kind = .campaignTouch ∨ touch.hasCampaign then
      setAll "collector" (derivedProperties pr touch) own
    else own

def noIdentifier : String := "This item has no usable identifier."

def noWorkspace : String :=
  "This item carries no workspace. It did not come through collector intake."

def noProject : String :=
  "This item carries no project. It did not come through collector intake."

def project (item : TelemetryItem) : Except String EventRow := do
  let e := item.envelope
  let eventId ← (toId e.eventId).elim (.error noIdentifier) .ok
  let payload ← payload item
  let workspaceId ← (toId (e.workspaceId.getD [])).elim (.error noWorkspace) .ok
  let projectId ← (toId (e.projectId.getD [])).elim (.error noProject) .ok
  let properties ← propertiesOf pr e payload
  return { EventRow.new eventId (kindName e.kind) (payloadName payload e.kind) e.occurredAt with
    workspaceId
    projectId
    sourceId := (toId (e.sourceId.getD [])).getD 0
    receivedAt := e.receivedAt.getD e.occurredAt
    sessionId := e.sessionId
    requestId := e.requestId
    traceId := e.traceId.bind toId
    serviceName := e.serviceName
    release := e.release
    properties }

end

section
variable {pr : Projector} {item : TelemetryItem} {row : EventRow}

theorem bind_eq_ok {ε α β : Type} {x : Except ε α} {f : α → Except ε β} {b : β} :
    (x >>= f) = .ok b ↔ ∃ a, x = .ok a ∧ f a = .ok b := by
  cases x with
  | error e => simp [Bind.bind, Except.bind]
  | ok a => simp [Bind.bind, Except.bind]

theorem elim_eq_ok {α : Type} {o : Option α} {reason : String} {a : α} :
    o.elim (Except.error reason) .ok = .ok a ↔ o = some a := by
  cases o <;> simp

theorem project_ok (projected : project pr item = .ok row) :
    ∃ p, payload item = .ok p ∧ row.kind = kindName item.envelope.kind ∧ row.name = payloadName p item.envelope.kind ∧
      toId (item.envelope.workspaceId.getD []) = some row.workspaceId ∧
      toId (item.envelope.projectId.getD []) = some row.projectId := by
  unfold project at projected
  obtain ⟨eventId, -, projected⟩ := bind_eq_ok.mp projected
  obtain ⟨p, carried, projected⟩ := bind_eq_ok.mp projected
  obtain ⟨workspaceId, workspace, projected⟩ := bind_eq_ok.mp projected
  obtain ⟨projectId, project, projected⟩ := bind_eq_ok.mp projected
  obtain ⟨properties, -, projected⟩ := bind_eq_ok.mp projected
  cases projected
  exact ⟨p, carried, rfl, rfl, elim_eq_ok.mp workspace, elim_eq_ok.mp project⟩

theorem fields_of_present {found : String} (one : present item = [found]) :
    ∀ x ∈ fields item, x.1 = true → x.2 = found := by
  intro x inside held
  have named : x.2 ∈ present item := List.mem_map_of_mem (List.mem_filter.mpr ⟨inside, held⟩)
  rw [one] at named
  exact List.mem_singleton.mp named

theorem itemName_eq {p : Payload} (carried : payload item = .ok p) :
    Collector.itemName item = payloadName p item.envelope.kind := by
  unfold payload at carried
  split at carried
  · rename_i none_present
    have absent : ∀ x ∈ fields item, ¬ x.1 = true := by
      intro x inside held
      have named : x.2 ∈ present item := List.mem_map_of_mem (List.mem_filter.mpr ⟨inside, held⟩)
      simp [none_present] at named
    simp [fields] at absent
    split at carried
    · cases carried
      simp [Collector.itemName, payloadName, absent]
    · cases carried
  · rename_i found one
    have only := fields_of_present one
    simp only at carried
    split at carried
    · cases carried
    rename_i declared
    have same : found = kindName item.envelope.kind := (not_not.mp declared).symm
    have first := elim_eq_ok.mp carried
    rw [same] at only
    clear one carried declared same
    -- every field but the one its kind selects is empty
    cases kind : item.envelope.kind <;> rw [kind] at only <;>
      simp [fields, kindName] at only <;> simp [firstPayload, only] at first <;>
      obtain ⟨own, held, rfl⟩ := first <;>
      simp [Collector.itemName, payloadName, kind, only, held]
  · cases carried

end

end TallyOwl.Project
