import TallyOwl.Store.Segmented.State

/-! A tablet replica that catches up by copying segments (`raft/machine.rs`,
`raft/storage.rs`, `transfer.rs`). The store is what this protocol uses of it: its listed
segments, the rows of log frames that no segment covers, and its batch receipts. Sources
apply the log and answer listings in three steps; the target asks a peer, copies segment
by segment, installs, applies later entries, and may die between two durable steps. -/
namespace TallyOwl.Cluster
open Lib
open Segmented (projectOf withProjects stamp)

/-- A sealed segment, with the range of its writer's append log. -/
structure Segment where
  segmentId : Nat
  rows : List EventRow
  logRange : Nat × Nat
  deriving DecidableEq

structure Tablet where
  segments : List Segment
  openRows : List EventRow
  openFrom : Nat
  nextPosition : Nat
  receipts : List (Id × Id)
  deriving DecidableEq

/-- One committed `TabletCommand::Commit`. -/
structure Entry where
  sourceId : Id
  batchId : Id
  rows : List EventRow
  deriving DecidableEq

def Entry.key (e : Entry) : Id × Id := (e.sourceId, e.batchId)

def idsOf (rows : List EventRow) : List Id := rows.map EventRow.eventId

namespace Tablet

def empty : Tablet := ⟨[], [], 0, 0, []⟩

def held (t : Tablet) : List EventRow := t.segments.flatMap Segment.rows ++ t.openRows

/-- The rows of a batch are in the append log, and the open buffer has them. -/
def extend (t : Tablet) (rows : List EventRow) : Tablet :=
  { t with openRows := t.openRows ++ rows, nextPosition := t.nextPosition + 1 }

def receive (t : Tablet) (key : Id × Id) : Tablet := { t with receipts := t.receipts ++ [key] }

/-- A commit that nothing interrupts. The prior receipt answers first. -/
def commit (t : Tablet) (key : Id × Id) (rows : List EventRow) : Tablet :=
  if key ∈ t.receipts then t else (t.extend rows).receive key

def sealNow (fresh : Nat) (t : Tablet) : Tablet :=
  if t.openRows = [] then t
  else
    let through := t.nextPosition - 1
    let projects := (withProjects ∅ t.openRows).entries.map Prod.fst
    { t with
      segments := t.segments ++ projects.zipIdx.map fun planned =>
        ⟨fresh + planned.2, t.openRows.filter fun row => projectOf row = planned.1, (t.openFrom, through)⟩
      openRows := []
      openFrom := through + 1 }

def lookupEvent (t : Tablet) (eventId : Id) : Option EventRow :=
  (t.openRows ++ t.segments.flatMap Segment.rows).find? fun row => row.eventId = eventId

def installSegment (t : Tablet) (segment : Segment) : Tablet :=
  if segment ∈ t.segments then t else { t with segments := t.segments ++ [segment] }

def overlaps (t : Tablet) (segment : Segment) : Bool :=
  t.segments.any fun held =>
    held.logRange.1 ≤ segment.logRange.2 ∧ segment.logRange.1 ≤ held.logRange.2

def reconcileSegment (fresh : Nat) (t : Tablet) (segment : Segment) : Tablet :=
  if t.overlaps segment then
    let keep := segment.rows.filter fun row => t.lookupEvent row.eventId = none
    if keep = [] then t else t.installSegment ⟨fresh, keep, segment.logRange⟩
  else t.installSegment segment

/-- A restart replays the frames past the checkpoint, and numbers the next frame above
every range a segment names. -/
def reopen (t : Tablet) : Tablet :=
  { t with nextPosition := t.segments.foldl (fun next g => max next (g.logRange.2 + 1)) t.nextPosition }

end Tablet

structure TabletMarks where
  appliedIndex : Nat
  copiedThrough : Nat
  deriving DecidableEq

/-- The rows of one batch that this store does not already hold. `none` means every row
is held. -/
def notAlreadyCopied (marks : TabletMarks) (t : Tablet) (index : Nat) (rows : List EventRow) :
    Option (List EventRow) :=
  if index > marks.copiedThrough then some rows
  else
    let missing := rows.filter fun row => t.lookupEvent row.eventId = none
    if missing = [] then none else some missing

structure Source where
  applied : Nat
  store : Tablet

inductive Phase where
  | idle
  /-- An apply whose rows are in the append log and whose receipt is not stored. -/
  | committing (index : Nat) (entry : Entry) (frame : List EventRow)
  /-- In `catch_up` for a snapshot, between two peers. -/
  | catching (index : Nat)
  | asked (index peer position : Nat)
  | settled (index peer position : Nat)
  | listed (index position : Nat) (segments : List Segment)
  | copying (index position : Nat) (reconciling : Bool) (left : List Segment)

structure System where
  sources : Nat → Source
  store : Tablet
  marks : TabletMarks
  saved : TabletMarks
  phase : Phase
  fresh : Nat
  copied : List Id

def System.start : System :=
  ⟨fun _ => ⟨0, .empty⟩, .empty, ⟨0, 0⟩, ⟨0, 0⟩, .idle, 0, []⟩

inductive Event where
  | sourceApply (peer : Nat) (now : Int)
  | sourceSeal (peer : Nat)
  | targetSeal
  | install (index : Nat)
  | ask (peer : Nat)
  | peerSeal
  | list
  | begin
  | copy
  | fail
  | giveUp
  | installed
  | apply (now : Int)
  | receipt
  | save
  | crash
  deriving DecidableEq

section
variable (log : List Entry)

def System.setSource (s : System) (peer : Nat) (source : Source) : System :=
  { s with sources := Function.update s.sources peer source }

def Source.apply (source : Source) (now : Int) : Option Source := do
  let entry ← log[source.applied]?
  some ⟨source.applied + 1,
    source.store.commit entry.key (stamp entry.sourceId entry.batchId now entry.rows)⟩

def Tablet.sealed (fresh : Nat) (t : Tablet) : Tablet × Nat := (t.sealNow fresh, fresh + t.openRows.length)

def System.sealSource (s : System) (peer : Nat) : System :=
  let source := s.sources peer
  let sealed := source.store.sealed s.fresh
  { s.setSource peer { source with store := sealed.1 } with fresh := sealed.2 }

def System.sealTarget (s : System) : System :=
  let sealed := s.store.sealed s.fresh
  { s with store := sealed.1, fresh := sealed.2 }

/-- The target applies the entry after its position, up to its receipt. -/
def System.applyNext (s : System) (now : Int) : Option System := do
  let index := s.marks.appliedIndex + 1
  let entry ← log[s.marks.appliedIndex]?
  let done := { s with marks := { s.marks with appliedIndex := index } }
  match notAlreadyCopied s.marks s.store index entry.rows with
  | none => some done
  | some rows =>
      if entry.key ∈ s.store.receipts then some done
      else some { s with phase := .committing index entry (stamp entry.sourceId entry.batchId now rows) }

def System.adopt (s : System) (reconciling : Bool) (segment : Segment) : System :=
  { s with
    store := if reconciling then s.store.reconcileSegment s.fresh segment
      else s.store.installSegment segment
    fresh := s.fresh + 1
    copied := s.copied ++ idsOf segment.rows }

def step (s : System) : Event → Option System
  | .sourceApply peer now => do
      let source ← (s.sources peer).apply log now
      some (s.setSource peer source)
  | .sourceSeal peer => some (s.sealSource peer)
  | .targetSeal =>
      match s.phase with
      | .committing _ _ _ => none
      | _ => some s.sealTarget
  | .install index =>
      match s.phase with
      | .idle =>
          if s.marks.appliedIndex < index then some { s with phase := .catching index }
          else some { s with marks := { s.marks with appliedIndex := index } }
      | _ => none
  | .ask peer =>
      match s.phase with
      | .catching index => some { s with phase := .asked index peer (s.sources peer).applied }
      | _ => none
  | .peerSeal =>
      match s.phase with
      | .asked index peer position => some { s.sealSource peer with phase := .settled index peer position }
      | _ => none
  | .list =>
      match s.phase with
      | .settled index peer position =>
          -- a peer that has not reached the snapshot is passed over
          if position < index then some { s with phase := .catching index }
          else some { s with phase := .listed index position (s.sources peer).store.segments }
      | _ => none
  | .begin =>
      match s.phase with
      | .listed index position segments =>
          let held := s.sealTarget
          some { held with phase := .copying index position (held.store.segments ≠ []) segments }
      | _ => none
  | .copy =>
      match s.phase with
      | .copying index position reconciling (segment :: left) =>
          some { s.adopt reconciling segment with phase := .copying index position reconciling left }
      | _ => none
  | .fail =>
      match s.phase with
      | .asked index _ _ | .settled index _ _ | .listed index _ _ | .copying index _ _ _ =>
          some { s with phase := .catching index }
      | _ => none
  | .giveUp =>
      match s.phase with
      | .catching _ => some { s with phase := .idle }
      | _ => none
  | .installed =>
      match s.phase with
      | .copying index position _ [] =>
          some { s with
            phase := .idle
            marks := ⟨index, max s.marks.copiedThrough position⟩ }
      | _ => none
  | .apply now =>
      match s.phase with
      | .idle => s.applyNext log now
      | _ => none
  | .receipt =>
      match s.phase with
      | .committing index entry frame =>
          some { s with
            phase := .idle
            store := (s.store.extend frame).receive entry.key
            marks := { s.marks with appliedIndex := index } }
      | _ => none
  | .save =>
      match s.phase with
      | .idle => some { s with saved := s.marks }
      | _ => none
  | .crash =>
      let store := match s.phase with
        | .committing _ _ frame => s.store.extend frame
        | _ => s.store
      some { s with phase := .idle, marks := s.saved, store := store.reopen }

end

end TallyOwl.Cluster
