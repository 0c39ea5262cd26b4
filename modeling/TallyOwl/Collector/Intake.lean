import TallyOwl.Collector.Policy
import TallyOwl.Collector.Series
import TallyOwl.Wire.Scrub

/-! Collector intake (`intake.rs`): each item of a batch is judged, stamped, scrubbed and put under
the policy, and what is left goes to the durable queue as one batch. The generated codec, the ledger
of series and the queue's answer are parameters. The readings of the clock within one call are one. -/
namespace TallyOwl.Collector
open Lib Wire

inductive ErrorCode where
  | invalidArgument | unauthenticated | permissionDenied | notFound | alreadyExists
  | resourceExhausted | failedPrecondition | unavailable | schemaUnsupported | budgetExceeded
  | incompleteResult | internal
  deriving DecidableEq

structure TallyOwlError where
  code : ErrorCode
  message : String
  deriving DecidableEq

def invalidArgument (message : String) : TallyOwlError := ⟨.invalidArgument, message⟩

def overLimit (subject observed limit remedy : String) : TallyOwlError :=
  ⟨.resourceExhausted, s!"{subject} rejected. It holds {observed} and the limit is {limit}. {remedy}"⟩

structure Tenancy where
  workspaceId : Id
  projectId : Id
  sourceId : Id
  deriving DecidableEq

structure Limits where
  maxBatchBytes : Int
  maxEventBytes : Int
  maxProperties : Int

structure RejectedItem where
  eventId : Bytes
  code : ErrorCode
  message : String
  deriving DecidableEq

structure SubmitBatchRequest where
  batch : Batch
  policyVersion : Option Nat
  protocolVersion : Option Nat

structure SubmitBatchResponse where
  batchId : Bytes
  accepted : Nat
  durableCopies : Nat
  queuedAt : Int
  rejected : Option (List RejectedItem)
  policyVersion : Option Nat
  deriving DecidableEq

structure Accepted where
  response : SubmitBatchResponse
  taskUuid : String
  deriving DecidableEq

structure Codec where
  encodeTelemetryItem : TelemetryItem → Bytes
  encodeBatch : Batch → Bytes

structure Intake (L : Type) where
  limits : Limits
  durableCopies : Nat
  maxMergePoints : Nat
  stamped : List (String × String)
  policy : Option Snapshot
  unicode : Scrub.Unicode
  floats : Floats
  codec : Codec
  admitPoint : L → Id → MetricPointPayload → Nat → Int → L × Except TallyOwlError Unit

def protocolVersion : Nat := 1

def acceptedProtocolVersions : List Nat := [protocolVersion]

def accepts : Option Nat → Bool
  | none => true
  | some declared => acceptedProtocolVersions.contains declared

def refusal (version : Nat) : String :=
  let accepted := " and ".intercalate (acceptedProtocolVersions.map toString)
  s!"This batch declares protocol version {version}, and this installation accepts {accepted}. Upgrade the app driver, or run a TallyOwl that still accepts {version}."

section

def refused (p : Property) : Bool := protectedKeys.contains p.key && p.origin == .client

def stampOne (properties : List Property) (key value : String) : List Property :=
  (properties.filter fun p => p.key != key) ++ [property key (.text value) .collector]

def stampProperties (stamped : List (String × String)) (properties : List Property) : List Property :=
  stamped.foldl (fun ps x => stampOne ps x.1 x.2) (properties.filter fun p => !refused p)

variable {L : Type} (intake : Intake L)

/-- Stamp tenancy and operator properties, and discard what a client must not set. -/
def Intake.stamp (tenancy : Tenancy) (now : Int) (item : TelemetryItem) : TelemetryItem :=
  { item with envelope := { item.envelope with
      workspaceId := some tenancy.workspaceId.bytes
      projectId := some tenancy.projectId.bytes
      sourceId := some tenancy.sourceId.bytes
      receivedAt := some now
      properties := stampProperties intake.stamped item.envelope.properties } }

end

section
variable (u : Scrub.Unicode)

def scrubProperty (p : Property) : Property :=
  if Scrub.isProtected u p.key then { p with value := write (.text Scrub.removed) }
  else
    match read p.value with
    | .ok (.text text) =>
        let cleaned := Scrub.text u text
        if cleaned ≠ text then { p with value := write (.text cleaned) } else p
    | _ => p

def scrubError (e : ErrorPayload) : ErrorPayload :=
  { e with
    message := Scrub.text u e.message
    frames := e.frames.map fun frames => frames.map fun frame =>
      { frame with file := frame.file.map Scrub.path } }

def scrubItem (item : TelemetryItem) : TelemetryItem :=
  { item with
    envelope := { item.envelope with properties := item.envelope.properties.map (scrubProperty u) }
    error := item.error.map (scrubError u)
    pageView := item.pageView.map fun page =>
      { page with route := Scrub.text u page.route, referrer := page.referrer.map (Scrub.text u) }
    event := item.event.map fun event => { event with route := event.route.map (Scrub.text u) } }

@[simp] theorem scrubProperty_key (p : Property) : (scrubProperty u p).key = p.key := by
  unfold scrubProperty
  grind

@[simp] theorem scrubProperty_origin (p : Property) : (scrubProperty u p).origin = p.origin := by
  unfold scrubProperty
  grind

end

namespace Intake
variable {L : Type} (intake : Intake L)

def noIdentifier : String :=
  "This item has no usable identifier. Every item needs a 16-byte event ID."

def noTime : String :=
  "This item has no time. Set the time the thing happened, in milliseconds since 1970."

def unevenHistogram (h : HistogramValue) : String :=
  s!"This histogram has {h.counts.length} bucket counts and {h.bounds.length} bounds. Send one count for each bound."

def decimals (item : TelemetryItem) : List CsilDecimal :=
  item.envelope.properties.filterMap (fun p => p.value.decimalValue) ++
    ((item.envelope.measurements.getD []).filterMap fun m => m.decimalValue) ++
    (item.conversion.bind fun c => c.value).toList ++ (item.campaignCost.map fun c => c.cost).toList

def checkItem (item : TelemetryItem) : Except TallyOwlError Unit :=
  let envelope := item.envelope
  let size : Int := (intake.codec.encodeTelemetryItem item).length
  if envelope.eventId.length ≠ 16 then .error (invalidArgument noIdentifier)
  else if intake.limits.maxProperties < envelope.properties.length then
    .error (overLimit "Item" s!"{envelope.properties.length} properties"
      s!"{intake.limits.maxProperties} properties"
      "Send fewer properties, or raise the limit for this project.")
  else if intake.limits.maxEventBytes < size then
    .error (overLimit "Item" s!"{size} bytes" s!"{intake.limits.maxEventBytes} bytes"
      "Send a smaller item, or raise the limit for this project.")
  else if envelope.occurredAt ≤ 0 then .error (invalidArgument noTime)
  else
    match (item.metricPoint.bind fun point => point.histogramValue).filter fun h =>
        h.counts.length ≠ h.bounds.length with
    | some h => .error (invalidArgument (unevenHistogram h))
    | none => (decimals item).forM fun d => (checkDecimal d.exponent).mapError invalidArgument

def admitMetricPoint (ledger : L) (item : TelemetryItem) (tenancy : Tenancy) (now : Int) :
    L × Except TallyOwlError Unit :=
  match item.metricPoint with
  | none => (ledger, .ok ())
  | some point =>
      intake.admitPoint ledger tenancy.projectId point (intake.codec.encodeTelemetryItem item).length now

def finish (tenancy : Tenancy) (now : Int) (item : TelemetryItem) : TelemetryItem :=
  let scrubbed := scrubItem intake.unicode (intake.stamp tenancy now item)
  match intake.policy with
  | none => scrubbed
  | some policy => policy.unlinkCampaign (policy.applyProperties scrubbed)

structure Taken (L : Type) where
  ledger : L
  kept : List TelemetryItem
  rejected : List RejectedItem
  refusedByPolicy : Nat

def refusedByPolicy (item : TelemetryItem) : Bool := intake.policy.any fun policy => !policy.keeps item

def reject (t : Taken L) (item : TelemetryItem) (reason : TallyOwlError) : Taken L :=
  { t with rejected := t.rejected ++ [⟨item.envelope.eventId, reason.code, reason.message⟩] }

/-- One turn of the loop over the items. A refusal by the policy is not a rejection. -/
def takeItem (tenancy : Tenancy) (now : Int) (t : Taken L) (item : TelemetryItem) : Taken L :=
  if intake.refusedByPolicy item then { t with refusedByPolicy := t.refusedByPolicy + 1 }
  else
    match intake.checkItem item with
    | .error reason => reject t item reason
    | .ok () =>
        let (ledger, admitted) := intake.admitMetricPoint t.ledger item tenancy now
        match admitted with
        | .error reason => reject { t with ledger } item reason
        | .ok () => { t with ledger, kept := t.kept ++ [intake.finish tenancy now item] }

structure Queueing where
  answer : Except TallyOwlError String
  queuedAt : Int

structure Submitted (L : Type) where
  ledger : L
  queued : Option Batch
  result : Except TallyOwlError Accepted

def tooLarge (size : Int) : TallyOwlError :=
  overLimit "Batch" s!"{size / 1024} KiB" s!"{intake.limits.maxBatchBytes / 1024} KiB"
    "Reduce the batch size or raise the limit for this project."

def taken (tenancy : Tenancy) (now : Int) (ledger : L) (items : List TelemetryItem) : Taken L :=
  items.foldl (intake.takeItem tenancy now) ⟨ledger, [], [], 0⟩

/-- The batch that is left of a request, once its items are judged. -/
def leftOf (request : SubmitBatchRequest) (t : Taken L) : Batch :=
  { request.batch with items := merge intake.floats intake.maxMergePoints t.kept }

def submitAs (tenancy : Tenancy) (now : Int) (queueing : Queueing) (ledger : L)
    (request : SubmitBatchRequest) : Submitted L :=
  let size : Int := (intake.codec.encodeBatch request.batch).length
  let answer := fun (t : Taken L) (accepted : Nat) (taskUuid : String) =>
    (⟨{ batchId := request.batch.batchId
        accepted
        durableCopies := intake.durableCopies
        queuedAt := queueing.queuedAt
        rejected := if t.rejected = [] then none else some t.rejected
        policyVersion := intake.policy.map fun policy => policy.version }, taskUuid⟩ : Accepted)
  if accepts request.protocolVersion = false then
    ⟨ledger, none, .error ⟨.schemaUnsupported, refusal (request.protocolVersion.getD protocolVersion)⟩⟩
  else if intake.limits.maxBatchBytes < size then ⟨ledger, none, .error (intake.tooLarge size)⟩
  else
    let t := intake.taken tenancy now ledger request.batch.items
    if t.kept = [] ∧ (t.rejected ≠ [] ∨ 0 < t.refusedByPolicy) then
      ⟨t.ledger, none, .ok (answer t 0 "")⟩
    else
      match queueing.answer with
      | .error refused => ⟨t.ledger, none, .error refused⟩
      | .ok taskUuid => ⟨t.ledger, some (intake.leftOf request t), .ok (answer t t.kept.length taskUuid)⟩

end Intake

section
variable {L : Type} {intake : Intake L} {tenancy : Tenancy} {now : Int}

def Intake.admitted (intake : Intake L) (tenancy : Tenancy) (now : Int) : L → List TelemetryItem → List TelemetryItem
  | _, [] => []
  | ledger, item :: rest =>
      if intake.refusedByPolicy item then admitted intake tenancy now ledger rest
      else
        match intake.checkItem item with
        | .error _ => admitted intake tenancy now ledger rest
        | .ok () =>
            let charged := intake.admitMetricPoint ledger item tenancy now
            match charged.2 with
            | .error _ => admitted intake tenancy now charged.1 rest
            | .ok () => item :: admitted intake tenancy now charged.1 rest

theorem Intake.kept_foldl (t : Taken L) (items : List TelemetryItem) :
    (items.foldl (intake.takeItem tenancy now) t).kept =
      t.kept ++ (intake.admitted tenancy now t.ledger items).map (intake.finish tenancy now) := by
  induction items generalizing t with
  | nil => simp [admitted]
  | cons item rest ih =>
    rw [List.foldl_cons, ih]
    simp only [admitted, takeItem]
    split
    · rfl
    · cases intake.checkItem item with
      | error reason => rfl
      | ok passed =>
        simp only
        cases charged : (intake.admitMetricPoint t.ledger item tenancy now).2 with
        | error reason => simp [reject]
        | ok admits => simp

theorem Intake.kept_taken (ledger : L) (items : List TelemetryItem) : (intake.taken tenancy now ledger items).kept =
      (intake.admitted tenancy now ledger items).map (intake.finish tenancy now) :=
  (intake.kept_foldl ⟨ledger, [], [], 0⟩ items).trans (List.nil_append _)

theorem Snapshot.leavesPoint_unlinkCampaign (policy : Snapshot) : LeavesPoint policy.unlinkCampaign where
  point item := by
    unfold unlinkCampaign
    split <;> rfl
  withPoint item p := by
    by_cases linked : policy.campaignLinking ≠ .unlinked ∨ item.envelope.kind ≠ .campaignTouch
    · have same : (setPoint item p).envelope = item.envelope := rfl
      rw [unlinkCampaign, unlinkCampaign, same, if_pos linked, if_pos linked]
    · have same : (setPoint item p).envelope = item.envelope := rfl
      rw [unlinkCampaign, unlinkCampaign, same, if_neg linked, if_neg linked]
      rfl

theorem Intake.leavesPoint_finish : LeavesPoint (intake.finish tenancy now) := by
  have scrubbed : LeavesPoint fun item => scrubItem intake.unicode (intake.stamp tenancy now item) :=
    ⟨fun _ => rfl, fun _ _ => rfl⟩
  unfold finish
  cases intake.policy with
  | none => exact scrubbed
  | some policy =>
    have applied : LeavesPoint policy.applyProperties := ⟨fun _ => rfl, fun _ _ => rfl⟩
    exact policy.leavesPoint_unlinkCampaign.comp (applied.comp scrubbed)

theorem Intake.items_leftOf (ledger : L) (request : SubmitBatchRequest) :
    (intake.leftOf request (intake.taken tenancy now ledger request.batch.items)).items =
      (merge intake.floats intake.maxMergePoints
        (intake.admitted tenancy now ledger request.batch.items)).map (intake.finish tenancy now) := by
  rw [leftOf, kept_taken, merge_map leavesPoint_finish]

theorem Intake.queued_submitAs {queueing : Queueing} {ledger : L} {request : SubmitBatchRequest} {batch : Batch} :
    (intake.submitAs tenancy now queueing ledger request).queued = some batch ↔ accepts request.protocolVersion = true ∧
      ((intake.codec.encodeBatch request.batch).length : Int) ≤ intake.limits.maxBatchBytes ∧
      ¬ ((intake.taken tenancy now ledger request.batch.items).kept = [] ∧
        ((intake.taken tenancy now ledger request.batch.items).rejected ≠ [] ∨
          0 < (intake.taken tenancy now ledger request.batch.items).refusedByPolicy)) ∧
      (∃ taskUuid, queueing.answer = .ok taskUuid) ∧
      batch = intake.leftOf request (intake.taken tenancy now ledger request.batch.items) := by
  unfold submitAs
  simp only
  split <;> rename_i version
  · simp [version]
  split <;> rename_i size
  · simp [Int.not_le.mpr size]
  split <;> rename_i empty
  · simp [empty]
  have passed := And.intro (Bool.not_eq_false _ ▸ version) (Int.not_lt.mp size)
  cases answer : queueing.answer with
  | error refused => simp
  | ok taskUuid => simpa [passed, empty] using eq_comm

end

end TallyOwl.Collector
