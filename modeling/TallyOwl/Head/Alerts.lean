import TallyOwl.Head.Document
import TallyOwl.Collector.Intake

/-! Built-in alerting (`alerts.rs`): what a rule may say, and the state machine that an evaluation moves. A time is a
number of milliseconds and a float is its bits. -/
namespace TallyOwl.Alerts
open Lib Wire
open Collector (TallyOwlError invalidArgument)
open Query (QueryRequest)

inductive AlertState where
  | ok | firing | noData | unknown | silenced
  deriving DecidableEq

inductive AlertOutcome where
  | value | noData | error
  deriving DecidableEq

inductive CompareOp where
  | gt | ge | lt | le | eq | ne
  deriving DecidableEq

inductive Consistency where
  | committed | boundedStale
  deriving DecidableEq

structure ThresholdCondition where
  compare : CompareOp
  value : UInt64
  sustainedMs : Option Int
  deriving DecidableEq

structure AbsenceCondition where
  forMs : Int
  deriving DecidableEq

inductive TargetKind where
  | webhook | csilCallback
  deriving DecidableEq

structure NotificationTarget where
  kind : TargetKind
  url : Option String
  secretRef : Option String
  deriving DecidableEq

/-- A rule. How consistent a read its query asks for stands beside the query. -/
structure AlertRule where
  ruleId : String
  name : String
  projectId : Bytes
  query : QueryRequest
  consistency : Consistency
  intervalMs : Int
  threshold : Option ThresholdCondition
  absence : Option AbsenceCondition
  notify : List NotificationTarget
  enabled : Bool
  escalateAfterMs : Option Int
  silencedUntil : Option Int
  silenceReason : Option String
  disabledReason : Option String
  updatedAt : Option Int
  updatedBy : Option String
  deriving DecidableEq

structure AlertInstance where
  ruleId : String
  projectId : Id
  state : String
  outcome : String
  since : Int
  lastEvaluatedAt : Int
  observedValue : UInt64
  hasValue : Bool
  reason : String
  notificationsSent : Nat
  lastNotifiedAt : Int
  holdingMs : Int
  commitWatermark : Nat
  budgetFailures : Nat
  pendingState : String
  deriving DecidableEq

structure Evaluation where
  outcome : AlertOutcome
  code : Option Collector.ErrorCode
  value : Option UInt64
  commitWatermark : Nat
  reason : String
  deriving DecidableEq

structure Decision where
  newInstance : AlertInstance
  notify : Bool
  escalated : Bool
  deriving DecidableEq

def stateName : AlertState → String
  | .ok => "ok"
  | .firing => "firing"
  | .noData => "no-data"
  | .unknown => "unknown"
  | .silenced => "silenced"

def stateFrom (name : String) : AlertState :=
  if name = "firing" then .firing
  else if name = "no-data" then .noData
  else if name = "unknown" then .unknown
  else if name = "silenced" then .silenced
  else .ok

def outcomeName : AlertOutcome → String
  | .value => "value"
  | .noData => "no-data"
  | .error => "error"

def newInstance (ruleId : String) (projectId : Id) : AlertInstance :=
  ⟨ruleId, projectId, stateName .ok, outcomeName .value, 0, 0, 0, false, "", 0, 0, 0, 0, 0, ""⟩

def minIntervalMs : Int := 1000

def isControl (c : Char) : Bool := c.toNat < 32 || (127 ≤ c.toNat && c.toNat ≤ 159)

def checkAddressText (url : String) : Except TallyOwlError Unit :=
  if url.toList.any fun c => isControl c || isWhitespace c then
    .error (invalidArgument "A notification address cannot hold a space, a line break, or another control character. Write one full address, such as `https://example.test/alerts`.")
  else .ok ()

def startsWith (url start : String) : Bool := start.toList.isPrefixOf url.toList

def checkTarget (callbacksAvailable : Bool) (target : NotificationTarget) : Except TallyOwlError Unit :=
  let url := target.url.getD ""
  match target.kind with
  | .webhook => do
      if url = "" then .error (invalidArgument "A webhook notification needs an address to send to.")
      checkAddressText url
      if !startsWith url "https://" && !startsWith url "http://" then
        .error (invalidArgument s!"`{url}` is not an address TallyOwl can send a webhook to. Write a full address, such as `https://example.test/alerts`.")
  | .csilCallback => do
      if url = "" then .error (invalidArgument "A native callback needs the address of the service to call.")
      checkAddressText url
      if target.secretRef.getD "" = "" then
        .error (invalidArgument "A native callback is signed, so it needs a secret. Set `secret_ref` on the target to the name of a secret this head can read, and give the receiver the same secret to verify with.")
      if !callbacksAvailable then
        .error ⟨.failedPrecondition, "This installation cannot deliver a native callback, so this rule would fire and tell nobody. Use a webhook."⟩

def checkRule (callbacksAvailable : Bool) (rule : AlertRule) : Except TallyOwlError Unit := do
  if isBlank rule.ruleId then .error (invalidArgument "An alert rule needs an identifier.")
  if rule.threshold.isNone && rule.absence.isNone then
    .error (invalidArgument "This alert rule has no condition. Give it a threshold on a measure, or an absence rule that fires when the data stops.")
  if rule.threshold.isSome && rule.absence.isSome then
    .error (invalidArgument "This alert rule has both a threshold and an absence rule. Built-in alerting answers one condition for each rule; write two rules.")
  if rule.intervalMs < minIntervalMs then
    .error (invalidArgument s!"This alert asks to evaluate every {rule.intervalMs} ms, and the shortest interval is {minIntervalMs} ms. An alert is a whole query each time it runs.")
  if rule.consistency = .boundedStale then
    .error (invalidArgument "An alert reads at `committed` consistency and this rule asks for a stale read. A stale read can answer from a replica that is behind, so the alert would fire on replication lag and report it as a change in the data.")
  rule.notify.forM (checkTarget callbacksAvailable)

section
variable (partialCmp : UInt64 → UInt64 → Option Ordering)

def crosses (compare : CompareOp) (value against : UInt64) : Bool :=
  match compare, partialCmp value against with
  | .gt, some .gt | .ge, some .gt | .ge, some .eq | .lt, some .lt | .le, some .lt | .le, some .eq | .eq, some .eq => true
  | .ne, order => order != some .eq
  | _, _ => false

def overBudget (e : Evaluation) : Bool := e.code == some .budgetExceeded || e.code == some .resourceExhausted

def AlertRule.wanted (rule : AlertRule) (e : Evaluation) : AlertState :=
  match e.outcome with
  | .error => .unknown
  | .noData => if rule.absence.isSome then .firing else .noData
  | .value =>
      match rule.threshold, e.value with
      | some threshold, some value => if crosses partialCmp threshold.compare value threshold.value then .firing else .ok
      | _, _ => .ok

def AlertInstance.asked (i : AlertInstance) : String := if i.pendingState = "" then i.state else i.pendingState

def AlertRule.holding (rule : AlertRule) (previous : AlertInstance) (e : Evaluation) (now : Int) : Int :=
  if stateName (rule.wanted partialCmp e) = previous.asked then
    previous.holdingMs + max (now - previous.lastEvaluatedAt) 0
  else 0

def AlertRule.needed (rule : AlertRule) (e : Evaluation) : Int :=
  match e.outcome with
  | .noData => (rule.absence.map AbsenceCondition.forMs).getD 0
  | _ => (rule.threshold.bind ThresholdCondition.sustainedMs).getD 0

def AlertRule.silencedBy (rule : AlertRule) (now : Int) : Bool := rule.silencedUntil.any (now < ·)

def AlertRule.moved (rule : AlertRule) (previous : AlertInstance) (e : Evaluation) (now : Int) : AlertState :=
  if rule.wanted partialCmp e = .firing ∧ rule.holding partialCmp previous e now < rule.needed e then
    if previous.state = "" then .ok else stateFrom previous.state
  else if rule.silencedBy now then .silenced
  else rule.wanted partialCmp e

def AlertRule.previous (rule : AlertRule) (held : Option AlertInstance) (now : Int) (projectId : Id) : AlertInstance :=
  held.getD { newInstance rule.ruleId projectId with since := now }

def AlertRule.decide (rule : AlertRule) (held : Option AlertInstance) (e : Evaluation) (now : Int) (projectId : Id) :
    Decision :=
  let previous := rule.previous held now projectId
  let state := rule.moved partialCmp previous e now
  let changed := stateName state != previous.state
  let escalateAfter := rule.escalateAfterMs.getD 0
  let escalated := !changed && state == .firing && 0 < escalateAfter && escalateAfter ≤ now - previous.lastNotifiedAt
  let notify := (changed || escalated) && state != .silenced
  { newInstance := {
      ruleId := rule.ruleId
      projectId
      state := stateName state
      outcome := outcomeName e.outcome
      since := if changed then now else previous.since
      lastEvaluatedAt := now
      observedValue := e.value.getD 0
      hasValue := e.value.isSome
      reason := e.reason
      notificationsSent := (if changed then 0 else previous.notificationsSent) + notify.toNat
      lastNotifiedAt := if notify then now else previous.lastNotifiedAt
      holdingMs := rule.holding partialCmp previous e now
      commitWatermark := e.commitWatermark
      budgetFailures := if overBudget e then previous.budgetFailures + 1 else 0
      pendingState := stateName (rule.wanted partialCmp e) }
    notify
    escalated }

end

end TallyOwl.Alerts
