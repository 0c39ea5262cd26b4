import TallyOwl.Collector.Intake
import TallyOwl.Head.Policy
import TallyOwl.Head.Project

/-! What the head does with a delivered batch before it is durable (`ingest.rs`): the protocol
window, the prior receipt, whom the source may write for, the projection of each item and the
collection policy. The store and the roll-up of golden signals are parameters. -/
namespace TallyOwl.Commit
open Lib Wire Collector Project Policy

structure Receipt where
  accepted : Nat
  committedAt : Int
  commitWatermark : Nat

structure Outcome where
  accepted : Nat
  committedAt : Int
  commitWatermark : Nat
  deduplicated : Bool

structure CommitBatchRequest where
  batch : Batch
  sourceId : Bytes
  attempt : Option Nat
  protocolVersion : Option Nat

structure CommitBatchResponse where
  batchId : Bytes
  accepted : Nat
  committedAt : Int
  commitWatermark : Nat
  rejected : Option (List RejectedItem)
  deduplicated : Option Bool

/-- Who a source may write for. -/
structure SourceCheck where
  source : Id → Except TallyOwlError (Option Source)
  requireKnown : Bool

structure Ingest where
  receipt : Id → Id → Option Receipt
  commitRows : Id → Id → List EventRow → Except TallyOwlError Outcome
  derivedBatchId : Id → Id
  goldenSignalBucketMs : Int
  goldenSignals : List EventRow → List EventRow
  sources : Option SourceCheck
  policy : Option PolicyService
  projector : Projector

def maxValueDigits : Int := 24

def tooManyDigits (named : String) : String :=
  s!"The {named} has more than {maxValueDigits} digits before the decimal point. Send the amount in the currency's own units, such as 19.99."

def checkAmount (named : String) (d : CsilDecimal) : Except String Unit := do
  checkDecimal d.exponent
  if d.mantissa ≠ 0 ∧ maxValueDigits < (toString d.mantissa.natAbs).length + d.exponent then
    .error (tooManyDigits named)

def payloadDecimalsInRange (item : TelemetryItem) : Except String Unit := do
  (item.conversion.bind fun c => c.value).elim (.ok ()) (checkAmount "value of this conversion")
  (item.campaignCost.map fun c => c.cost).elim (.ok ()) (checkAmount "cost of this campaign")

def mismatch : String :=
  "This item names a workspace or a project that its source does not belong to, so it was not stored. A collector stamps both from the credential and never from the payload."

def unknownSource : TallyOwlError := ⟨.permissionDenied,
  "This batch names a source this installation has no record of, so nothing in it was stored. A collector takes its source from the key an application presents. Check that the key still exists, and that the collector forwards to the head that issued it."⟩

def noBatchId : String :=
  "This batch has no usable identifier. Every batch needs a 16-byte batch ID."

def notCollected (name : String) : String :=
  s!"The collection policy for this project does not collect `{name}`."

def noTouches : String :=
  "The collection policy for this project does not collect campaign touches."

def collectRow (policy : PolicyService) (row : EventRow) : Except RejectedItem EventRow :=
  let c := policy.forProject row.projectId
  if c.keeps row = false then .error ⟨row.eventId.bytes, .permissionDenied, notCollected row.name⟩
  else
    let captured := c.capture row
    if captured.1 = .refused then .error ⟨row.eventId.bytes, .permissionDenied, noTouches⟩
    else .ok (c.applyProperties captured.2)

/-- The rows of a loop that go on, and the rejections of those that do not. -/
def split {α : Type} (each : α → Except RejectedItem EventRow) (xs : List α) :
    List EventRow × List RejectedItem :=
  (xs.filterMap fun x => (each x).toOption,
    xs.filterMap fun x => match each x with
      | .error reason => some reason
      | .ok _ => none)

/-- The rows handed to the store, those of the batch and those derived from it, and the answer. -/
structure Handed where
  batch : Option (List EventRow)
  signals : Option (List EventRow)
  answer : Except TallyOwlError CommitBatchResponse

namespace Ingest
variable (i : Ingest)

/-- The workspace and the project the source may write for. Nothing, when nobody checks. -/
def permitted (sourceId : Id) : Except TallyOwlError (Option Source) :=
  match i.sources with
  | none => .ok none
  | some check =>
      match check.source sourceId with
      | .error reason => .error reason
      | .ok none => if check.requireKnown then .error unknownSource else .ok none
      | .ok (some source) => .ok (some source)

def admitRow (permitted : Option Source) (item : TelemetryItem) : Except RejectedItem EventRow :=
  match payloadDecimalsInRange item >>= fun _ => project i.projector item with
  | .error reason => .error ⟨item.envelope.eventId, .invalidArgument, reason⟩
  | .ok row =>
      if permitted.any fun s => row.workspaceId ≠ s.workspaceId || row.projectId ≠ s.projectId then
        .error ⟨item.envelope.eventId, .permissionDenied, mismatch⟩
      else .ok row

def collected (rows : List EventRow) : List EventRow × List RejectedItem :=
  match i.policy with
  | none => (rows, [])
  | some policy => split (collectRow policy) rows

def signalsOwed (sourceId batchId : Id) : Bool :=
  0 < i.goldenSignalBucketMs && (i.receipt sourceId (i.derivedBatchId batchId)).isNone

def deduplicated (batchId : Bytes) (held : Receipt) : CommitBatchResponse :=
  ⟨batchId, held.accepted, held.committedAt, held.commitWatermark, none, some true⟩

/-- Commit the golden signals of one batch, under the identifier derived from the batch. -/
def commitSignals (sourceId batchId : Id) (signals : List EventRow) : Except TallyOwlError Unit :=
  if signals = [] then .ok ()
  else (i.commitRows sourceId (i.derivedBatchId batchId) signals).map fun _ => ()

def commit (request : CommitBatchRequest) : Handed :=
  if accepts request.protocolVersion = false then
    ⟨none, none, .error ⟨.schemaUnsupported, refusal (request.protocolVersion.getD protocolVersion)⟩⟩
  else
    match toId request.batch.batchId with
    | none => ⟨none, none, .error (invalidArgument noBatchId)⟩
    | some batchId =>
        let sourceId := (toId request.sourceId).getD 0
        let prior := i.receipt sourceId batchId
        match prior.filter fun _ => !i.signalsOwed sourceId batchId with
        | some held => ⟨none, none, .ok (deduplicated request.batch.batchId held)⟩
        | none =>
          match i.permitted sourceId with
          | .error reason => ⟨none, none, .error reason⟩
          | .ok permitted =>
              let projected := split (i.admitRow permitted) request.batch.items
              let kept := i.collected projected.1
              let signals := if 0 < i.goldenSignalBucketMs then i.goldenSignals kept.1 else []
              let handed := if signals = [] then none else some signals
              match prior with
              | some held =>
                  ⟨none, handed, (i.commitSignals sourceId batchId signals).map fun _ =>
                    deduplicated request.batch.batchId held⟩
              | none =>
                  match i.commitRows sourceId batchId kept.1 with
                  | .error reason => ⟨some kept.1, none, .error reason⟩
                  | .ok outcome =>
                      let rejected := projected.2 ++ kept.2
                      ⟨some kept.1, handed, (i.commitSignals sourceId batchId signals).map fun _ =>
                        ⟨request.batch.batchId, outcome.accepted, outcome.committedAt,
                          outcome.commitWatermark, if rejected = [] then none else some rejected,
                          some outcome.deduplicated⟩⟩

/-- The guards that a batch passes before its items are read for the first time. -/
structure Opens (request : CommitBatchRequest) (permitted : Option Source) : Prop where
  version : accepts request.protocolVersion = true
  batchId : ∃ batchId, toId request.batch.batchId = some batchId ∧
    i.receipt ((toId request.sourceId).getD 0) batchId = none
  source : i.permitted ((toId request.sourceId).getD 0) = .ok permitted

end Ingest

section
variable {i : Ingest} {request : CommitBatchRequest}

theorem mem_split {α : Type} {each : α → Except RejectedItem EventRow} {xs : List α} {row : EventRow} :
    row ∈ (split each xs).1 ↔ ∃ x ∈ xs, each x = .ok row := by
  have ok : ∀ r : Except RejectedItem EventRow, r.toOption = some row ↔ r = .ok row := by
    intro r
    cases r <;> simp [Except.toOption]
  simp [split, List.mem_filterMap, ok]

theorem Ingest.batch_commit {rows : List EventRow} : (i.commit request).batch = some rows ↔
      ∃ permitted, i.Opens request permitted ∧
        rows = (i.collected (split (i.admitRow permitted) request.batch.items).1).1 := by
  unfold commit
  split <;> rename_i version
  · simp only [reduceCtorEq, false_iff, not_exists, not_and]
    exact fun permitted opens => absurd opens.version (by simp [version])
  cases named : toId request.batch.batchId with
  | none =>
    simp only [reduceCtorEq, false_iff, not_exists, not_and]
    intro permitted opens
    obtain ⟨batchId, held, -⟩ := opens.batchId
    simp [named] at held
  | some batchId =>
    simp only
    cases prior : i.receipt ((toId request.sourceId).getD 0) batchId with
    | some held =>
      have closed : ∀ permitted, ¬ i.Opens request permitted := by
        intro permitted opens
        obtain ⟨other, same, absent⟩ := opens.batchId
        cases named.symm.trans same
        simp [prior] at absent
      simp only [closed, false_and, exists_false, iff_false]
      cases (some held).filter fun _ => !i.signalsOwed ((toId request.sourceId).getD 0) batchId with
      | some again => simp
      | none => cases i.permitted ((toId request.sourceId).getD 0) <;> simp
    | none =>
      simp only [Option.filter_none]
      cases checked : i.permitted ((toId request.sourceId).getD 0) with
      | error reason =>
        simp only [reduceCtorEq, false_iff, not_exists, not_and]
        exact fun permitted opens => absurd opens.source (by simp [checked])
      | ok permitted =>
        have opens : ∀ other, i.Opens request other ↔ other = permitted := by
          intro other
          constructor
          · intro opened
            exact Option.some.inj (congrArg some (Except.ok.inj (opened.source.symm.trans checked)))
          · rintro rfl
            exact ⟨by simpa using version, ⟨batchId, named, prior⟩, checked⟩
        simp only [opens, exists_eq_left]
        cases i.commitRows ((toId request.sourceId).getD 0) batchId
          (i.collected (split (i.admitRow permitted) request.batch.items).1).1 <;>
          simp [eq_comm]

end

end TallyOwl.Commit
