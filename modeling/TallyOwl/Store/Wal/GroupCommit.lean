import TallyOwl.Lib.Runs
import TallyOwl.Store.Wal.WholeFrames

/-! The append log as its callers run it. Every event is one stretch of code
between taking the lock and giving it up: a caller that enters or wakes, a
committer that comes back from its linger or its write, a reclamation that enters,
wakes or gives up. A group is written and synced with the lock released, through a
handle cloned before. A `u64` that would pass its width stops the process, so such
a step is not there. -/
namespace TallyOwl.Wal
open Lib Format

structure GroupCommit where
  linger : Nat
  maxGroupBytes : Nat
  maxGroupFrames : Nat
  minReclaimBytes : Nat
  deriving DecidableEq

/-- The measured defaults; the linger is in microseconds. -/
instance : Inhabited GroupCommit := ⟨2000, 8 * 1024 * 1024, 4096, 4 * 1024 * 1024⟩

structure WalStatistics where
  frames : Nat
  bytes : Nat
  fsyncs : Nat
  largestGroup : Nat
  deriving DecidableEq, Inhabited

structure Shared where
  file : Nat
  pending : Bytes
  pendingFrames : Nat
  writeOffset : Nat
  durableUpto : Nat
  durableBefore : Nat
  committing : Bool
  reclaimWanted : Nat
  nextPosition : Nat
  statistics : WalStatistics
  failure : Option String
  headerChecksummed : Bool
  deriving DecidableEq, Inhabited

/-- Every inode the log ever opened, and the one its path names now. -/
structure Disk where
  inodes : List Bytes
  named : Nat
  deriving DecidableEq, Inhabited

def Disk.read (disk : Disk) (handle : Nat) : Bytes := (disk.inodes[handle]?).getD []

def Disk.write (disk : Disk) (handle offset : Nat) (bytes : Bytes) : Disk :=
  { disk with inodes := disk.inodes.set handle (writeAt (disk.read handle) offset bytes) }

def Disk.replace (disk : Disk) (bytes : Bytes) : Disk :=
  ⟨disk.inodes ++ [bytes], disk.inodes.length⟩

/-- Where one `append` call stands. -/
inductive Stage where
  | parked (position : Nat)
  | lingering (position : Nat)
  | writing (position : Nat) (take : Bytes) (offset handle : Nat)
  | returned (result : Except WalError Nat)
  deriving DecidableEq

structure Call where
  payload : Bytes
  stage : Stage
  deriving DecidableEq

structure Reclaim where
  through : Nat
  /-- `none` while it waits for the committer. -/
  result : Option (Except WalError Nat)
  deriving DecidableEq

structure State where
  disk : Disk
  shared : Shared
  calls : List Call
  reclaims : List Reclaim
  deriving DecidableEq, Inhabited

def nothingLeftToWrite : String :=
  "We could not make this data durable, so we did not accept it. " ++
  "The append log has nothing left to write and this frame is not on disk."

def couldNotMakeDurable (error : String) : String :=
  s!"We could not make this data durable, so we did not accept it. {error}"

section
variable (hash : Bytes → UInt64) (settings : GroupCommit) (directory : String)

def takeGroup (shared : Shared) : Bytes × Shared :=
  if shared.pending.length > settings.maxGroupBytes ∨
      shared.pendingFrames > settings.maxGroupFrames then
    let cut := frameBoundaryBefore shared.pending settings.maxGroupBytes
    let taken := shared.pending.take cut
    (taken, { shared with
      pending := shared.pending.drop cut
      pendingFrames := shared.pendingFrames - framesIn taken })
  else
    (shared.pending, { shared with pending := [], pendingFrames := 0 })

/-- The committer's loop, from its top to the next return or the next write. -/
def commitLoop (position : Nat) (shared : Shared) : Shared × Stage :=
  if shared.reclaimWanted > 0 ∧ position < shared.durableBefore then
    ({ shared with committing := false }, .returned (.ok position))
  else
    let group := takeGroup settings shared
    let take := group.1
    let shared := group.2
    if take = [] then
      ({ shared with committing := false },
        if position < shared.durableBefore then .returned (.ok position)
        else .returned (.error (.unavailable (shared.failure.getD nothingLeftToWrite))))
    else
      ({ shared with
          writeOffset := shared.writeOffset + take.length
          statistics := { shared.statistics with
            largestGroup := max shared.statistics.largestGroup (framesIn take) } },
        .writing position take shared.writeOffset shared.file)

/-- The waiting loop of `append`, up to the next wait, return or write. -/
def waitLoop (position : Nat) (shared : Shared) : Shared × Stage :=
  if position < shared.durableBefore then (shared, .returned (.ok position))
  else
    match shared.failure with
    | some failure => (shared, .returned (.error (.unavailable failure)))
    | none =>
        if shared.committing = false ∧ shared.reclaimWanted = 0 then
          if settings.linger = 0 then commitLoop settings position { shared with committing := true }
          else ({ shared with committing := true }, .lingering position)
        else (shared, .parked position)

/-- `append` from its first line. -/
def append (payload : Bytes) (shared : Shared) : Option (Shared × Stage) :=
  match shared.failure with
  | some failure => some (shared, .returned (.error (.unavailable failure)))
  | none =>
      if shared.nextPosition + 1 < 2 ^ 64 then
        some (waitLoop settings shared.nextPosition { shared with
          nextPosition := shared.nextPosition + 1
          pending := shared.pending ++
            encodeFrame hash shared.nextPosition payload shared.headerChecksummed
          pendingFrames := shared.pendingFrames + 1 })
      else none

def synced (take : Bytes) (offset : Nat) (shared : Shared) : Shared :=
  { shared with
    statistics := { shared.statistics with
      fsyncs := shared.statistics.fsyncs + 1
      bytes := shared.statistics.bytes + take.length }
    durableUpto := max shared.durableUpto (offset + take.length)
    durableBefore := match lastPositionIn take with
      | some covers => max shared.durableBefore (covers + 1)
      | none => shared.durableBefore }

def afterWrite (position : Nat) (take : Bytes) (offset : Nat) (shared : Shared) : Shared × Stage :=
  let shared := synced take offset shared
  if position < shared.durableBefore ∧ shared.pending = [] then
    ({ shared with committing := false }, .returned (.ok position))
  else commitLoop settings position shared

def afterRefusal (error : String) (shared : Shared) : Shared × Stage :=
  ({ shared with
      failure := some (couldNotMakeDurable error)
      pending := []
      pendingFrames := 0
      committing := false },
    .returned (.error (.unavailable (couldNotMakeDurable error))))

inductive RewriteStep where
  | read | create | magic | tail | sync | rename | parent
  deriving DecidableEq

def RewriteStep.message (directory : String) : RewriteStep → String → String
  | .read, e => s!"The append log could not be read: {e}"
  | .create, e | .magic, e | .tail, e => s!"The append log could not be rewritten: {e}"
  | .sync, e => s!"The append log could not be flushed to disk: {e}"
  | .rename, e => s!"The append log could not be replaced: {e}"
  | .parent, e =>
      s!"The directory {directory} could not be flushed to disk, so a change to the append log " ++
      s!"might not survive a power loss: {e}"

structure Fault where
  step : RewriteStep
  error : String
  deriving DecidableEq

def Fault.message (fault : Fault) (directory : String) : String :=
  fault.step.message directory fault.error

/-- The durable bytes behind the magic, read back through the open handle. -/
def readBack (fault : Option Fault) (disk : Disk) (shared : Shared) : Except WalError Bytes :=
  match fault.filter (·.step = .read) with
  | some fault => .error (.unavailable (fault.message directory))
  | none =>
      match window (disk.read shared.file) walMagic.length
          (shared.durableUpto - walMagic.length) with
      | none =>
          .error (.unavailable (RewriteStep.read.message directory "failed to fill whole buffer"))
      | some bytes => .ok bytes

/-- What a reclamation would write: how many bytes it drops and what it keeps.
`none` when there is nothing to do. -/
def planRewrite (through : Nat) (fault : Option Fault) (disk : Disk) (shared : Shared) :
    Except WalError (Option (Nat × Bytes)) :=
  if shared.durableUpto ≤ walMagic.length then .ok none
  else do
    let bytes ← readBack directory fault disk shared
    let start ← keepFrom bytes through bytes.length 0
    if start = 0 then .ok none
    else if start < bytes.length - start ∧ start < settings.minReclaimBytes then .ok none
    else
      let tail ← if shared.headerChecksummed then .ok (bytes.drop start)
        else reencode hash (bytes.drop start)
      .ok (some (start, tail))

/-- The rewrite gets as far as the rename, so the path names a new file. -/
def replaces (through : Nat) (fault : Option Fault) (disk : Disk) (shared : Shared) : Bool :=
  match planRewrite hash settings directory through fault disk shared with
  | .ok (some _) => fault.all (·.step = .parent)
  | _ => false

/-- The rewrite of `reclaim_through`, once no committer is at work. -/
def rewrite (through : Nat) (fault : Option Fault) (disk : Disk) (shared : Shared) :
    Disk × Shared × Except WalError Nat :=
  match planRewrite hash settings directory through fault disk shared with
  | .error e => (disk, shared, .error e)
  | .ok none => (disk, shared, .ok 0)
  | .ok (some (dropped, tail)) =>
      let disk' := disk.replace (walMagic ++ tail)
      let shared' := { shared with
        file := disk'.named
        writeOffset := walMagic.length + tail.length
        durableUpto := walMagic.length + tail.length
        headerChecksummed := true }
      match fault with
      | none => (disk', shared', .ok dropped)
      | some fault =>
          let failed := fault.message directory
          if fault.step = .parent then
            (disk', { shared' with failure := some failed }, .error (.unavailable failed))
          else (disk, shared, .error (.unavailable failed))

inductive Event where
  | append (payload : Bytes)
  | wake (call : Nat)
  | lingered (call : Nat)
  /-- The device holds `part` at the start of the range a group is being written to. -/
  | device (call : Nat) (part : Bytes)
  | written (call : Nat)
  | refused (call : Nat) (error : String)
  | reclaim (through : Nat) (fault : Option Fault)
  | reclaimWake (reclaim : Nat) (fault : Option Fault)
  | reclaimTimedOut (reclaim : Nat)
  deriving DecidableEq

def State.moved (s : State) (i : Nat) (payload : Bytes) (result : Shared × Stage) : State :=
  { s with shared := result.1, calls := s.calls.set i ⟨payload, result.2⟩ }

/-- A reclamation whose turn it is: it leaves the count and rewrites. -/
def reclaimTurn (s : State) (through : Nat) (fault : Option Fault) :
    State × Except WalError Nat :=
  let shared := { s.shared with reclaimWanted := s.shared.reclaimWanted - 1 }
  let result := rewrite hash settings directory through fault s.disk shared
  ({ s with disk := result.1, shared := result.2.1 }, result.2.2)

def step (s : State) : Event → Option State
  | .append payload => do
      let result ← append hash settings payload s.shared
      some { s with shared := result.1, calls := s.calls ++ [⟨payload, result.2⟩] }
  | .wake i =>
      match s.calls[i]? with
      | some ⟨payload, .parked position⟩ =>
          some (s.moved i payload (waitLoop settings position s.shared))
      | _ => none
  | .lingered i =>
      match s.calls[i]? with
      | some ⟨payload, .lingering position⟩ =>
          some (s.moved i payload (commitLoop settings position s.shared))
      | _ => none
  | .device i part =>
      match s.calls[i]? with
      | some ⟨_, .writing _ take offset handle⟩ =>
          if part.length ≤ take.length then
            some { s with disk := s.disk.write handle offset part }
          else none
      | _ => none
  | .written i =>
      match s.calls[i]? with
      | some ⟨payload, .writing position take offset handle⟩ =>
          some ({ s with disk := s.disk.write handle offset take }.moved i payload
            (afterWrite settings position take offset s.shared))
      | _ => none
  | .refused i error =>
      match s.calls[i]? with
      | some ⟨payload, .writing _ _ _ _⟩ =>
          some (s.moved i payload (afterRefusal error s.shared))
      | _ => none
  | .reclaim through fault =>
      let s := { s with shared := { s.shared with reclaimWanted := s.shared.reclaimWanted + 1 } }
      if s.shared.committing then
        some { s with reclaims := s.reclaims ++ [⟨through, none⟩] }
      else
        let result := reclaimTurn hash settings directory s through fault
        some { result.1 with reclaims := s.reclaims ++ [⟨through, some result.2⟩] }
  | .reclaimWake j fault =>
      match s.reclaims[j]? with
      | some ⟨through, none⟩ =>
          if s.shared.committing then some s
          else
            let result := reclaimTurn hash settings directory s through fault
            some { result.1 with reclaims := s.reclaims.set j ⟨through, some result.2⟩ }
      | _ => none
  | .reclaimTimedOut j =>
      match s.reclaims[j]? with
      | some ⟨through, none⟩ =>
          some { s with
            shared := { s.shared with reclaimWanted := s.shared.reclaimWanted - 1 }
            reclaims := s.reclaims.set j ⟨through, some (.ok 0)⟩ }
      | _ => none

/-- `open_acknowledged`. The file is cut to its complete part, and one with no
frame in it starts again in the current version. -/
def openAcknowledged (path : String) (file : Option Bytes) (acknowledged : Option Nat) :
    Except WalError State := do
  let recovered ← recover hash path file acknowledged
  let trimmed := (file.getD []).take recovered.durableBytes
  let bytes := if recovered.frames = [] then walMagic else trimmed
  let writeOffset := max recovered.durableBytes walMagic.length
  .ok {
    disk := ⟨[bytes], 0⟩
    shared := {
      file := 0
      pending := []
      pendingFrames := 0
      writeOffset := writeOffset
      durableUpto := writeOffset
      durableBefore := recovered.nextPosition
      committing := false
      reclaimWanted := 0
      nextPosition := recovered.nextPosition
      statistics := ⟨0, 0, 0, 0⟩
      failure := none
      headerChecksummed := recovered.frames = [] || recovered.headerChecksummed }
    calls := []
    reclaims := [] }

end
end TallyOwl.Wal
