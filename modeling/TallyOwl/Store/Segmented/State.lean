import TallyOwl.Store.LocatorComplete
import TallyOwl.Store.RowCodec
import TallyOwl.Store.Wal.Recovery

/-! The segmented store (`segmented.rs`) as its callers run it: commits, one seal at a
time, installs, swaps, and a process that dies and opens its directory again. Every
event is one stretch of code between two points where another caller can come in: a
catalog transaction, a file put in place, a group of the append log, or a section under
the state lock. A commit holds the append gate from its log append to its open extend,
and a seal drains only while no commit does. -/
namespace TallyOwl.Segmented
open Lib Format Locate RowCodec

structure Sealing where
  maxOpenRows : Nat
  maxOpenMs : Int

instance : Inhabited Sealing := ⟨800000, 60000⟩

/-- The settings of a store, and the functions it takes from outside this model. -/
structure Node where
  hash : Bytes → UInt64
  floatText : UInt64 → String
  parseFloat : String → Option UInt64
  /-- The content address and the size of the file a manifest and its rows make. -/
  image : Manifest → List EventRow → Bytes × Nat
  groupCommit : Wal.GroupCommit
  sealing : Sealing
  directory : String
  path : String

inductive StoreError where
  | unavailable (message : String)
  | damaged (message : String)
  | invalidArgument (message : String)
  | exhausted (message : String)
  deriving DecidableEq

def StoreError.ofWal : Wal.WalError → StoreError
  | .unavailable m => .unavailable m
  | .damaged m => .damaged m

structure CommitOutcome where
  accepted : Nat
  committedAt : Int
  commitWatermark : Nat
  deduplicated : Bool
  deriving DecidableEq

/-- Where one `commit` call stands. -/
inductive CommitStage where
  | begun
  | stamped (committedAt : Int)
  | numbered (committedAt : Int) (watermark : Nat)
  /-- Inside the append log, as its call number `frame`. -/
  | appending (committedAt : Int) (watermark frame : Nat)
  | logged (committedAt : Int) (watermark position : Nat)
  | received (committedAt : Int) (watermark position : Nat)
  | due (outcome : CommitOutcome)
  | sealing (outcome : CommitOutcome)
  | returned (result : Except StoreError CommitOutcome)
  | lost
  deriving DecidableEq

def CommitStage.holdsGate : CommitStage → Bool
  | .appending _ _ _ | .logged _ _ _ | .received _ _ _ => true
  | _ => false

structure Commit where
  sourceId : Id
  batchId : Id
  rows : List EventRow
  stage : CommitStage
  deriving DecidableEq

def Commit.key (c : Commit) : Id ×ₗ Id := toLex (c.sourceId, c.batchId)

def Commit.goes (c : Commit) (stage : CommitStage) : Commit := { c with stage }

/-- The rows of a batch with what the commit writes on each of them. -/
def stamp (sourceId batchId : Id) (committedAt : Int) (rows : List EventRow) : List EventRow :=
  rows.map fun row => { row with batchId, sourceId, committedAt }

def projectOf (row : EventRow) : Id ×ₗ Id := toLex (row.workspaceId, row.projectId)

/-- Rows between the open buffer and a published segment. The address tells one shared
allocation from another. -/
structure SealingBatch where
  segmentIds : List Id
  rows : List EventRow
  address : Nat
  deriving DecidableEq

/-- What a running store holds in memory, with its append log. -/
structure Memory where
  openRows : List EventRow
  openProjects : OrderedMap (Id ×ₗ Id) Unit
  openedAt : Int
  openFrom : Nat
  watermark : Nat
  sealing : List SealingBatch
  addresses : Nat
  wal : Wal.State

def withProjects (projects : OrderedMap (Id ×ₗ Id) Unit) (rows : List EventRow) :
    OrderedMap (Id ×ₗ Id) Unit :=
  rows.foldl (fun projects row => projects.insert (projectOf row) ()) projects

def Memory.extend (m : Memory) (rows : List EventRow) (committedAt : Int) : Memory :=
  { m with
    openedAt := if m.openRows = [] then committedAt else m.openedAt
    openProjects := withProjects m.openProjects rows
    openRows := m.openRows ++ rows }

def shouldSeal (settings : Sealing) (now : Int) (m : Memory) : Bool :=
  m.openRows ≠ [] ∧
    (m.openRows.length ≥ settings.maxOpenRows ∨ now - m.openedAt ≥ settings.maxOpenMs)

/-- One drained batch: its rows, the segments it will make and the log range they cover. -/
structure Drained where
  address : Nat
  rows : List EventRow
  plan : List ((Id ×ₗ Id) × Id)
  range : Nat × Nat
  openedAt : Int

inductive SealStage where
  | entered
  | checked
  | drained (batch : Drained)
  | writing (batch : Drained) (segments left : List Written)
  | published (batch : Drained) (written : Option Id)
  | dropped (written : Option Id)
  | reclaiming (written : Option Id) (reclaim : Nat)

/-- The seal that has the sealing turn, and the commit that runs it, if one does. -/
structure Seal where
  owner : Option Nat
  stage : SealStage

structure Install where
  segment : Written
  written : Bool

structure Swap where
  retire : List Id
  segments : List Written
  left : List Written
  published : Bool

structure State where
  catalog : Catalog
  files : OrderedMap Id (List EventRow)
  log : Option Bytes
  up : Option Memory
  commits : List Commit
  turn : Option Seal
  installs : List Install
  swaps : List Swap
  accepted : List (Receipt × List EventRow)
  joined : List (Id ×ₗ Id)

def State.empty : State := ⟨.empty, ∅, none, none, [], none, [], [], [], []⟩

def State.running (s : State) (m : Memory) : State := { s with up := some m }

/-! What a segment writer says about the rows it was given. -/

def rangeOf (pick : EventRow → Int) (rows : List EventRow) : Int × Int :=
  rows.foldl (fun r row => (min r.1 (pick row), max r.2 (pick row))) (2 ^ 63 - 1, -2 ^ 63)

def kindsOf (rows : List EventRow) : List String :=
  sortDedup (· ≤ ·) (rows.map EventRow.kind)

def relativePath (segmentId : Id) : String := s!"segments/{hex segmentId.bytes}.tos"

/-- A manifest with everything the writer takes from the rows filled in. -/
def describe (node : Node) (m : Manifest) (rows : List EventRow) : Manifest :=
  let bare := { m with
    kinds := kindsOf rows
    occurredRange := rangeOf EventRow.occurredAt rows
    receivedRange := rangeOf EventRow.receivedAt rows
    committedRange := rangeOf EventRow.committedAt rows
    rowCount := rows.length
    generation := 0
    relativePath := relativePath m.segmentId }
  let image := node.image bare rows
  { bare with contentAddress := image.1, byteCount := image.2 }

/-- The rows of one planned segment. A batch of one project is the segment. -/
def projectRows (batch : Drained) (project : Id ×ₗ Id) : List EventRow :=
  if batch.plan.length = 1 then batch.rows
  else batch.rows.filter fun row => projectOf row = project

def sealedSegment (node : Node) (batch : Drained) (planned : (Id ×ₗ Id) × Id) : Written :=
  let rows := projectRows batch planned.1
  (describe node { Manifest.retired planned.2 0 with
    workspaceId := (ofLex planned.1).1
    projectId := (ofLex planned.1).2
    logRange := batch.range
    tier := "local" } rows, rows)

def replacement (node : Node) (source : Manifest) (segmentId : Id) (rows : List EventRow) : Written :=
  (describe node { source with segmentId } rows, rows)

/-- A segment that came from another node, as this store will list it. -/
def received (segment : Written) : Written :=
  ({ segment.1 with
    generation := 0, tier := "local", relativePath := relativePath segment.1.segmentId }, segment.2)

def needsOneItem : String := "A stored file needs at least one item."

inductive CallEvent where
  | lookup (now : Int)
  | noRoom (message : String)
  | allocate
  | append
  | appended
  | receipt
  | receiptFails (message : String)
  | extend (now : Int)

inductive SealEvent where
  | check (refusal : Option String)
  | drain (segmentIds : List Id)
  | build (now : Int)
  | write
  | publish
  | fails (error : StoreError) (now : Int)
  | drop
  | reclaim (fault : Option Wal.Fault)
  | done

inductive Event where
  | openLog
  | recordCheckpoint
  | openWith (now : Int)
  | crash
  | commit (sourceId batchId : Id) (rows : List EventRow)
  | call (i : Nat) (e : CallEvent)
  | log (e : Wal.Event)
  | sealStart (owner : Option Nat)
  | sealing (e : SealEvent)
  | install (segment : Written)
  | installWrite (k : Nat)
  | installPublish (k : Nat)
  | swap (retire : List Id) (replacements : List (Manifest × Id × List EventRow))
  | swapWrite (k : Nat)
  | swapPublish (k : Nat)
  | consolidate (k : Nat) (bucket : Int)

/-- The steps the append log takes on its own, between entering and leaving a call. A
group is written whole or not at all. -/
def ofLog : Wal.Event → Bool
  | .wake _ | .lingered _ | .written _ | .refused _ _ | .reclaimWake _ _
  | .reclaimTimedOut _ => true
  | _ => false

section
variable (node : Node)

def walStep (wal : Wal.State) (e : Wal.Event) : Option Wal.State :=
  Wal.step node.hash node.groupCommit node.directory wal e

/-- The next stretch of one `commit` call. -/
def callStep (s : State) (m : Memory) (c : Commit) : CallEvent → Option (State × Commit)
  | .lookup now =>
      match c.stage with
      | .begun =>
          match s.catalog.receipt c.sourceId c.batchId with
          | some prior => some (s, c.goes (.returned (.ok
              ⟨prior.accepted, prior.committedAt, prior.commitWatermark, true⟩)))
          | none => some (s, { c with
              rows := stamp c.sourceId c.batchId now c.rows, stage := .stamped now })
      | _ => none
  | .noRoom message =>
      match c.stage with
      | .stamped _ => some (s, c.goes (.returned (.error (.exhausted message))))
      | _ => none
  | .allocate =>
      match c.stage with
      | .stamped committedAt =>
          some (s.running { m with watermark := m.watermark + 1 },
            c.goes (.numbered committedAt (m.watermark + 1)))
      | _ => none
  | .append =>
      match c.stage with
      | .numbered committedAt watermark => do
          let wal ← walStep node m.wal (.append (encodeRows node.floatText c.rows))
          some (s.running { m with wal },
            c.goes (.appending committedAt watermark m.wal.calls.length))
      | _ => none
  | .appended =>
      match c.stage with
      | .appending committedAt watermark frame =>
          match m.wal.calls[frame]? with
          | some ⟨_, .returned (.ok position)⟩ =>
              some (s, c.goes (.logged committedAt watermark position))
          | some ⟨_, .returned (.error e)⟩ => some (s, c.goes (.returned (.error (.ofWal e))))
          | _ => none
      | _ => none
  | .receipt =>
      match c.stage with
      | .logged committedAt watermark position =>
          let receipt : Receipt :=
            ⟨c.sourceId, c.batchId, c.rows.length, committedAt, watermark, position⟩
          some ({ s with
              catalog := s.catalog.commitReceipt receipt
              accepted := s.accepted ++ [(receipt, c.rows)] },
            c.goes (.received committedAt watermark position))
      | _ => none
  | .receiptFails message =>
      match c.stage with
      | .logged _ _ _ => some (s, c.goes (.returned (.error (.unavailable message))))
      | _ => none
  | .extend now =>
      match c.stage with
      | .received committedAt watermark _ =>
          let extended := m.extend c.rows committedAt
          let outcome : CommitOutcome := ⟨c.rows.length, committedAt, watermark, false⟩
          some ({ s.running extended with joined := s.joined ++ [c.key] },
            c.goes (if shouldSeal node.sealing now extended then .due outcome
              else .returned (.ok outcome)))
      | _ => none

/-- What a commit makes of the seal it ran. A device that refused for space leaves the
rows in the log, so the commit stands. -/
def Commit.sealed (c : Commit) (result : Except StoreError (Option Id)) : Commit :=
  match c.stage, result with
  | .sealing outcome, .ok _ | .sealing outcome, .error (.exhausted _) =>
      c.goes (.returned (.ok outcome))
  | .sealing _, .error e => c.goes (.returned (.error e))
  | _, _ => c

/-- A seal gives up its turn, and the commit that ran it returns. -/
def State.finish (s : State) (holder : Seal) (result : Except StoreError (Option Id)) : State :=
  { s with
    turn := none
    commits := match holder.owner with
      | none => s.commits
      | some i =>
          match s.commits[i]? with
          | none => s.commits
          | some c => s.commits.set i (c.sealed result) }

/-- Put an unpublished seal's rows back in front of the open buffer. -/
def Memory.reopen (m : Memory) (batch : Drained) (now : Int) : Memory :=
  { m with
    sealing := m.sealing.filter fun b => b.address ≠ batch.address
    openProjects := withProjects m.openProjects batch.rows
    openRows := batch.rows ++ m.openRows
    openFrom := batch.range.1
    openedAt := if batch.openedAt = 0 then now else batch.openedAt }

/-- The drain: the open buffer becomes a sealing batch, under new segment ids. -/
def Memory.drain (m : Memory) (segmentIds : List Id) : Memory × Drained :=
  let through := m.wal.shared.nextPosition - 1
  ({ m with
      openRows := []
      openProjects := ∅
      openedAt := 0
      openFrom := through + 1
      sealing := m.sealing ++ [⟨segmentIds, m.openRows, m.addresses⟩]
      addresses := m.addresses + 1 },
    { address := m.addresses
      rows := m.openRows
      plan := (m.openProjects.entries.map Prod.fst).zip segmentIds
      range := (m.openFrom, through)
      openedAt := m.openedAt })

def sealStep (s : State) (m : Memory) (holder : Seal) : SealEvent → Option State
  | .check refusal =>
      match holder.stage with
      | .entered =>
          if m.openRows = [] then some (s.finish holder (.ok none))
          else
            match refusal with
            | some message => some (s.finish holder (.error (.exhausted message)))
            | none => some { s with turn := some { holder with stage := .checked } }
      | _ => none
  | .drain segmentIds =>
      match holder.stage with
      | .checked =>
          if ∀ c ∈ s.commits, c.stage.holdsGate = false then
            if m.openRows = [] then some (s.finish holder (.ok none))
            else if segmentIds.length = m.openProjects.entries.length then
              let drained := m.drain segmentIds
              some { s.running drained.1 with
                turn := some { holder with stage := .drained drained.2 } }
            else none
          else none
      | _ => none
  | .build now =>
      match holder.stage with
      | .drained batch =>
          let segments := batch.plan.map (sealedSegment node batch)
          if segments = [] then
            some { s with turn := some { holder with stage := .published batch none } }
          else if ∃ w ∈ segments, w.2 = [] then
            some ((s.running (m.reopen batch now)).finish holder
              (.error (.invalidArgument needsOneItem)))
          else some { s with turn := some { holder with stage := .writing batch segments segments } }
      | _ => none
  | .write =>
      match holder.stage with
      | .writing batch segments (w :: left) =>
          some { s with
            files := s.files.insert w.1.segmentId w.2
            turn := some { holder with stage := .writing batch segments left } }
      | _ => none
  | .publish =>
      match holder.stage with
      | .writing batch segments [] => do
          let catalog ← s.catalog.publishSealed (segments.map Prod.fst)
            (locatorFor node.hash node.floatText segments) (min (batch.range.2 + 1) (2 ^ 64 - 1))
          some { s with
            catalog
            turn := some { holder with
              stage := .published batch ((segments.map fun w => w.1.segmentId).getLast?) } }
      | _ => none
  | .fails error now =>
      match holder.stage with
      | .drained batch | .writing batch _ _ =>
          some ((s.running (m.reopen batch now)).finish holder (.error error))
      | _ => none
  | .drop =>
      match holder.stage with
      | .published batch written =>
          some { s.running { m with
              sealing := m.sealing.filter fun b => b.address ≠ batch.address } with
            turn := some { holder with stage := .dropped written } }
      | _ => none
  | .reclaim fault =>
      match holder.stage with
      | .dropped written =>
          let checkpoint := s.catalog.logCheckpoint.getD 0
          if checkpoint > 0 then do
            let wal ← walStep node m.wal (.reclaim (checkpoint - 1) fault)
            some { s.running { m with wal } with
              turn := some { holder with stage := .reclaiming written m.wal.reclaims.length } }
          else some (s.finish holder (.ok written))
      | _ => none
  | .done =>
      match holder.stage with
      | .reclaiming written j =>
          match m.wal.reclaims[j]? with
          | some ⟨_, some (.ok _)⟩ => some (s.finish holder (.ok written))
          | some ⟨_, some (.error e)⟩ => some (s.finish holder (.error (.ofWal e)))
          | _ => none
      | _ => none

/-- `saturating_add(1)` on a log position. -/
def after (position : Nat) : Nat := min (position + 1) (2 ^ 64 - 1)

/-- The first position the log may hand out: above every record of how far it reached. -/
def firstPosition (c : Catalog) : Nat :=
  let checkpoint := c.logCheckpoint.getD 0
  let floor := if c.watermark.1 = 0 then checkpoint else max checkpoint (after c.watermark.2)
  max floor ((c.manifests.map fun m => after m.logRange.2).foldl max 0)

/-- The log of a directory, opened with the highest position a receipt names. -/
def openedLog (s : State) : Except Wal.WalError Wal.State :=
  Wal.openAcknowledged node.hash node.path s.log
    (if s.catalog.watermark.1 > 0 then some s.catalog.watermark.2 else none)

def startAtLeast (wal : Wal.State) (floor : Nat) : Wal.State :=
  if wal.shared.nextPosition < floor then
    { wal with shared := { wal.shared with
        nextPosition := floor
        durableBefore := if wal.shared.pending = [] then max wal.shared.durableBefore floor
          else wal.shared.durableBefore } }
  else wal

/-- The rows of the frames at or above the checkpoint, as far as they decode. -/
def replayRows (frames : List Wal.Frame) (checkpoint : Nat) : List EventRow :=
  (frames.filter fun f => f.position ≥ checkpoint).flatMap fun f =>
    match decodeRows node.parseFloat f.payload with
    | .ok rows => rows
    | .error _ => []

/-- `recover`, on a log just opened. -/
def recovered (c : Catalog) (now : Int) (wal : Wal.State) : Option Memory :=
  match Wal.recover node.hash node.path (some wal.onDisk) none with
  | .error _ => none
  | .ok r =>
      let checkpoint := c.logCheckpoint.getD 0
      let rows := replayRows node r.frames checkpoint
      some {
        openRows := rows
        openProjects := withProjects ∅ rows
        openedAt := if rows = [] then 0 else now
        openFrom := checkpoint
        watermark := c.watermark.1
        sealing := []
        addresses := 0
        wal := startAtLeast wal (firstPosition c) }

def Commit.dies (c : Commit) : Commit :=
  match c.stage with
  | .returned _ => c
  | _ => c.goes .lost

def step (s : State) : Event → Option State
  | .openLog =>
      match s.up, openedLog node s with
      | none, .ok wal => some { s with log := some wal.onDisk }
      | _, _ => none
  | .recordCheckpoint =>
      match s.up with
      | none => some { s with
          catalog := { s.catalog with logCheckpoint := some (s.catalog.logCheckpoint.getD 0) } }
      | some _ => none
  | .openWith now =>
      match s.up, openedLog node s with
      | none, .ok wal => do
          let m ← recovered node s.catalog now wal
          some { s.running m with
            catalog := { s.catalog with logCheckpoint := some (s.catalog.logCheckpoint.getD 0) } }
      | _, _ => none
  | .crash => do
      let m ← s.up
      some { s with
        log := some m.wal.onDisk
        up := none
        commits := s.commits.map Commit.dies
        turn := none
        installs := []
        swaps := [] }
  | .commit sourceId batchId rows => do
      let _ ← s.up
      some { s with commits := s.commits ++ [⟨sourceId, batchId, rows, .begun⟩] }
  | .call i e => do
      let m ← s.up
      let c ← s.commits[i]?
      let next ← callStep node s m c e
      some { next.1 with commits := s.commits.set i next.2 }
  | .log e => do
      let m ← s.up
      if ofLog e then do
        let wal ← walStep node m.wal e
        some (s.running { m with wal })
      else none
  | .sealStart owner => do
      let _ ← s.up
      match s.turn, owner with
      | none, none => some { s with turn := some ⟨none, .entered⟩ }
      | none, some i =>
          match s.commits[i]? with
          | some ⟨source, batch, rows, .due outcome⟩ =>
              some { s with
                turn := some ⟨some i, .entered⟩
                commits := s.commits.set i ⟨source, batch, rows, .sealing outcome⟩ }
          | _ => none
      | some _, _ => none
  | .sealing e => do
      let m ← s.up
      let holder ← s.turn
      sealStep node s m holder e
  | .install segment => do
      let _ ← s.up
      -- A segment the store holds under the same content address is left alone.
      if s.catalog.manifests.any fun held => held.contentAddress = segment.1.contentAddress then
        some s
      else some { s with installs := s.installs ++ [⟨received segment, false⟩] }
  | .installWrite k => do
      let _ ← s.up
      let install ← s.installs[k]?
      some { s with
        files := s.files.insert install.segment.1.segmentId install.segment.2
        installs := s.installs.set k { install with written := true } }
  | .installPublish k => do
      let _ ← s.up
      let install ← s.installs[k]?
      if install.written then
        let catalog ← s.catalog.publishWithLocator [install.segment.1]
          (locatorFor node.hash node.floatText [install.segment])
        some { s with catalog, installs := s.installs.eraseIdx k }
      else none
  | .swap retire replacements => do
      let _ ← s.up
      if ∃ r ∈ replacements, r.2.2 = [] then some s
      else
        let segments := replacements.map fun r => replacement node r.1 r.2.1 r.2.2
        some { s with swaps := s.swaps ++ [⟨retire, segments, segments, false⟩] }
  | .swapWrite k => do
      let _ ← s.up
      match s.swaps[k]? with
      | some ⟨retire, segments, w :: left, false⟩ =>
          some { s with
            files := s.files.insert w.1.segmentId w.2
            swaps := s.swaps.set k ⟨retire, segments, left, false⟩ }
      | _ => none
  | .swapPublish k => do
      let _ ← s.up
      match s.swaps[k]?, s.turn with
      | some ⟨retire, segments, [], false⟩, none => do
          let catalog ← s.catalog.swapWithLocator retire (segments.map Prod.fst)
            (locatorFor node.hash node.floatText segments)
          some { s with catalog, swaps := s.swaps.set k ⟨retire, segments, [], true⟩ }
      | _, _ => none
  | .consolidate k bucket => do
      let _ ← s.up
      match s.swaps[k]? with
      | some ⟨retire, _, _, true⟩ => do
          let catalog ← s.catalog.consolidateLocator bucket retire
          some { s with catalog }
      | _ => none

end

section
open Xxh3

/-- A store whose callers do not linger, with what no step here depends on left plain. -/
def plainNode : Node where
  hash := xxh3
  floatText := fun _ => ""
  parseFloat := fun _ => none
  image := fun m _ => (m.segmentId.bytes, 0)
  groupCommit := { (default : Wal.GroupCommit) with linger := 0 }
  sealing := default
  directory := "data/wal"
  path := "data/wal/tablet-0000.wal"

/-- One commit from its first line to its return, alone in the store: call `i`, which is
the log's call `frame`. -/
def commitAlone (i frame : Nat) (sourceId batchId : Id) (rows : List EventRow) : List Event :=
  [.commit sourceId batchId rows, .call i (.lookup 1), .call i .allocate, .call i .append,
    .log (.written frame), .call i .appended, .call i .receipt, .call i (.extend 1)]

end
end TallyOwl.Segmented
