import TallyOwl.Lib.Runs
import TallyOwl.Store.RowCodec
import TallyOwl.Store.Tombstone

/-! Tail sampling at the head (`sampling.rs`), with the registry of open traces that a commit tells
(`Ingest::commit`). Commits and the one sweep take their steps in any order, and a crash may fall
between any two. A percentage is an exact number; its threshold, the hash of a tombstone's id and the
text of a float are parameters. -/
namespace TallyOwl.Sampling
open Lib

def alwaysKeepKinds : List String := ["error", "conversion"]

structure TailSettings where
  decisionWindowMs : Int
  lateSpanGraceMs : Int
  keepPercent : ℚ
  keepSlowerThanMs : Int

structure Decision where
  keep : Bool
  reason : String
  deriving DecidableEq

structure Open where
  projectId : Id
  firstAt : Int
  lastAt : Int

structure TailSampler where
  settings : TailSettings
  threshold : ℚ → ℕ
  hash : Id → Id
  floatText : UInt64 → String

/-- One row of a trace is noted (`OpenTraces::observe`). -/
def note (openTraces : OrderedMap Id Open) (row : EventRow) : OrderedMap Id Open :=
  match row.traceId with
  | none => openTraces
  | some traceId =>
      match openTraces.get? traceId with
      | some held => openTraces.insert traceId
          { held with lastAt := max held.lastAt row.receivedAt, firstAt := min held.firstAt row.receivedAt }
      | none => openTraces.insert traceId ⟨row.projectId, row.receivedAt, row.receivedAt⟩

def observe (openTraces : OrderedMap Id Open) (rows : List EventRow) : OrderedMap Id Open :=
  rows.foldl note openTraces

def closed (openTraces : OrderedMap Id Open) (now windowMs : Int) : List (Id × Open) :=
  openTraces.entries.filter fun entry => windowMs ≤ now - entry.2.lastAt

section
variable (s : TailSampler)

def durationMs (row : EventRow) : Int :=
  match row.property "duration_ms" with
  | some (.integer ms) => ms
  | some (.unsigned ms) => (BitVec.ofNat 64 ms).toInt
  | _ => 0

/-- How long the trace took, from its earliest start to its latest end. -/
def spanOf (rows : List EventRow) : Int :=
  let (earliest, latest) := rows.foldl
    (fun bounds row => (min bounds.1 row.occurredAt, max bounds.2 (row.occurredAt + durationMs row)))
    ((2 ^ 63 - 1 : Int), (-2 ^ 63 : Int))
  if earliest = 2 ^ 63 - 1 then 0 else latest - earliest

def share (traceId : Id) : ℕ := traceId.val / 2 ^ 64

/-- Apply the tail rules to one trace. The first that applies decides. -/
def judge (rows : List EventRow) (traceId : Id) : Decision :=
  if rows.any fun row => row.kind ∈ alwaysKeepKinds then
    ⟨true, "the trace holds an error or a conversion"⟩
  else if rows.any fun row => row.property "status" = some (.text "error") then
    ⟨true, "a span in the trace failed"⟩
  else if s.settings.keepSlowerThanMs ≤ spanOf rows then ⟨true, "the trace was slow"⟩
  else if 100 ≤ s.settings.keepPercent then ⟨true, "every ordinary trace is kept"⟩
  else if share traceId < s.threshold s.settings.keepPercent then
    ⟨true, "the trace is in the sampled share"⟩
  else ⟨false, "an ordinary trace outside the sampled share"⟩

def tombstone (traceId : Id) (entry : Open) (now : Int) (decision : Decision) : Tombstone where
  tombstoneId := s.hash traceId
  generation := 0
  projectId := entry.projectId
  eventIds := []
  property := some ("trace_id", hex traceId.bytes)
  exceptKinds := alwaysKeepKinds
  range := none
  requestedAt := now
  horizon := now + s.settings.decisionWindowMs * 60
  reason := s!"tail sampling: {decision.reason}"

end

/-- A recorded decision, with the rows that were judged, which nothing reads. -/
structure Applied where
  keep : Bool
  appliedAt : Int
  seen : List EventRow

/-- Where the sweep is with one trace, and what is left of its pass. -/
inductive Stage where
  | idle
  | decides (now : Int) (queue : List (Id × Open))
  | looks (now : Int) (traceId : Id) (entry : Open) (queue : List (Id × Open))
  | erases (now : Int) (traceId : Id) (entry : Open) (decision : Decision) (seen : List EventRow)
      (queue : List (Id × Open))
  | records (now : Int) (traceId : Id) (keep : Bool) (seen : List EventRow) (queue : List (Id × Open))
  | forgets (now : Int) (traceId : Id) (queue : List (Id × Open))

/-- What is durable (rows, tombstones of the sampler, erasures of others, decisions) and what a crash
takes (the registry, batches that are observed and not committed, the sweep). -/
structure World where
  rows : List EventRow
  tail : List Tombstone
  erasures : List Tombstone
  decisions : OrderedMap Id Applied
  openTraces : OrderedMap Id Open
  pending : List (List EventRow)
  stage : Stage

def World.new : World := ⟨[], [], [], ∅, ∅, [], .idle⟩

inductive Event where
  | observes (rows : List EventRow)
  | commits (batch : ℕ)
  | drops (batch : ℕ)
  | erasure (tombstone : Tombstone)
  | begins (now : Int)
  | sweeps
  | fails
  | crashes

namespace World
variable (s : TailSampler)

def visible (w : World) (row : EventRow) : Bool := !hiddenBy s.floatText (w.tail ++ w.erasures) row

/-- `lookup_correlated` under a trace id. -/
def lookup (w : World) (traceId : Id) : List EventRow :=
  w.rows.filter fun row => row.traceId = some traceId && w.visible s row

def sweep (w : World) : Option World :=
  match w.stage with
  | .idle => none
  | .decides _ [] => some { w with stage := .idle }
  | .decides now ((traceId, entry) :: queue) =>
      match w.decisions.get? traceId with
      | some _ => some { w with stage := .forgets now traceId queue }
      | none => some { w with stage := .looks now traceId entry queue }
  | .looks now traceId entry queue =>
      let found := w.lookup s traceId
      if found = [] then some { w with stage := .forgets now traceId queue }
      else
        let decision := judge s found traceId
        if decision.keep then some { w with stage := .records now traceId true found queue }
        else some { w with stage := .erases now traceId entry decision found queue }
  | .erases now traceId entry decision seen queue => some { w with
      tail := w.tail ++ [tombstone s traceId entry now decision]
      stage := .records now traceId false seen queue }
  | .records now traceId keep seen queue => some { w with
      decisions := w.decisions.insert traceId ⟨keep, now, seen⟩
      stage := .forgets now traceId queue }
  | .forgets now traceId queue => some { w with
      openTraces := w.openTraces.erase traceId
      stage := .decides now queue }

def fail (w : World) : Option World :=
  match w.stage with
  | .looks now _ _ queue | .erases now _ _ _ _ queue | .records now _ _ _ queue | .forgets now _ queue =>
      some { w with stage := .decides now queue }
  | .decides now (_ :: queue) => some { w with stage := .decides now queue }
  | _ => none

def step (w : World) : Event → Option World
  | .observes rows => some { w with openTraces := observe w.openTraces rows, pending := w.pending ++ [rows] }
  | .commits i => w.pending[i]?.map fun rows =>
      { w with rows := w.rows ++ rows, pending := w.pending.eraseIdx i }
  | .drops i => w.pending[i]?.map fun _ => { w with pending := w.pending.eraseIdx i }
  | .erasure tombstone => some { w with erasures := w.erasures ++ [tombstone] }
  | .begins now =>
      match w.stage with
      | .idle => some { w with stage := .decides now (closed w.openTraces now s.settings.decisionWindowMs) }
      | _ => none
  | .sweeps => w.sweep s
  | .fails => w.fail
  | .crashes => some { w with openTraces := ∅, pending := [], stage := .idle }

end World

end TallyOwl.Sampling
