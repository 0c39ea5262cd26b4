import TallyOwl.Lib.Bytes
import TallyOwl.Lib.OrderedMap

/-! The durable state of one consensus group (`raft/storage.rs`). Every write is one durable
transaction, so what a crash leaves is the file as the last one left it. Stored values are
decoded, but for the machine's own bytes. -/
namespace TallyOwl.Raft
open Lib

structure LogId where
  term : Nat
  node : Nat
  index : Nat
  deriving DecidableEq

/-- The term, the node and whether a quorum granted it, in the order votes are compared. -/
abbrev Vote := ℕ ×ₗ ℕ ×ₗ Bool

structure Membership where
  configs : List (List Nat)
  nodes : List (Nat × String)
  deriving DecidableEq

structure StoredMembership where
  logId : Option LogId
  membership : Membership
  deriving DecidableEq

def StoredMembership.default : StoredMembership := ⟨none, ⟨[], []⟩⟩

inductive EntryPayload where
  | blank
  | normal (payload : Bytes)
  | membership (membership : Membership)
  deriving DecidableEq

structure Entry where
  logId : LogId
  payload : EntryPayload
  deriving DecidableEq

structure SnapshotMeta where
  lastLogId : Option LogId
  lastMembership : StoredMembership
  snapshotId : String
  deriving DecidableEq

/-- A group's state machine. An error is this replica's alone, and stops the group here. -/
structure GroupMachine (M : Type*) where
  new : M
  apply : M → (index : Nat) → (payload : Bytes) → Except String M
  snapshot : M → Bytes
  install : Bytes → Except String M
  snapshotForPeer : M → (state : Bytes) → Except String Bytes
  installFromPeer : M → (snapshot : Bytes) → (index : Nat) → (peers : List String) → Except String M

structure Disk where
  log : OrderedMap Nat Entry
  vote : Option Vote
  committed : Option LogId
  applied : Option LogId
  membership : Option StoredMembership
  snapshotMeta : Option SnapshotMeta
  snapshotData : Option Bytes
  purged : Option LogId
  machineStateRecord : Option Bytes

def Disk.empty : Disk := ⟨∅, none, none, none, none, none, none, none, none⟩

namespace Disk
variable (disk : Disk)

/-- The machine state that was written with the applied position. An empty record counts as
none. -/
def machineState : Option Bytes := disk.machineStateRecord.filter fun state => state ≠ []

def appliedPair : Option LogId × Option Bytes := (disk.applied, disk.machineState)

def append (entries : List Entry) : Disk :=
  { disk with log := entries.foldl (fun log entry => log.insert entry.logId.index entry) disk.log }

def truncate (logId : LogId) : Disk :=
  { disk with log := disk.log.filter fun index _ => index < logId.index }

def purge (logId : LogId) : Disk :=
  { disk with log := disk.log.filter fun index _ => logId.index < index, purged := some logId }

def saveVote (vote : Vote) : Disk := { disk with vote := some vote }

def saveCommitted (committed : Option LogId) : Disk := { disk with committed }

/-- Where the group says it is: the position whose state the machine was given. -/
def appliedState : Option LogId × StoredMembership :=
  let membership := disk.membership.getD .default
  match disk.machineState with
  | none => (disk.snapshotMeta.bind SnapshotMeta.lastLogId, membership)
  | some _ => (disk.applied, membership)

end Disk

section
variable {M : Type*} (machine : GroupMachine M)

/-- A restart gives a new machine the state written with the position, or the snapshot. -/
def Disk.opened (disk : Disk) : Except String M :=
  match disk.machineState with
  | some state => machine.install state
  | none =>
      match disk.snapshotData with
      | some data => machine.install data
      | none => .ok machine.new

def take (m : M) (entry : Entry) : Except String M :=
  match entry.payload with
  | .normal payload => machine.apply m entry.logId.index payload
  | .membership _ | .blank => .ok m

def takeAll (m : M) (entries : List Entry) : Except String M := entries.foldlM (take machine) m

def membershipAfter (stored : Option StoredMembership) (entries : List Entry) : Option StoredMembership :=
  entries.foldl (fun stored entry => match entry.payload with
    | .membership membership => some ⟨some entry.logId, membership⟩
    | _ => stored) stored

def positionAfter (position : Option LogId) (entries : List Entry) : Option LogId :=
  entries.foldl (fun _ entry => some entry.logId) position

/-- One durable write for a batch: the position, the machine's state, and the membership. -/
def Disk.apply (disk : Disk) (m : M) (entries : List Entry) : Disk :=
  if entries = [] then disk
  else
    { disk with
      applied := positionAfter disk.applied entries
      machineStateRecord := some (machine.snapshot m)
      membership := membershipAfter disk.membership entries }

def snapshotOf (count : Nat) (applied : Option LogId) (membership : StoredMembership) : SnapshotMeta :=
  ⟨applied, membership, s!"{(applied.map LogId.index).getD 0}-{count}"⟩

def Disk.storeSnapshot (disk : Disk) (snapshot : SnapshotMeta) (data : Bytes) : Disk :=
  { disk with snapshotMeta := some snapshot, snapshotData := some data }

/-- Build a snapshot where nothing else runs, and count it. A preparation or an encoding that
fails leaves the previous one. -/
def Disk.buildSnapshot (disk : Disk) (m : M) (count : Nat) (prepared : Bool) : Disk × Nat :=
  if prepared then
    match machine.snapshotForPeer m (disk.appliedPair.2.getD (machine.snapshot m)) with
    | .error _ => (disk, count)
    | .ok data =>
        (disk.storeSnapshot (snapshotOf (count + 1) disk.appliedPair.1 (disk.membership.getD .default)) data,
          count + 1)
  else (disk, count)

def Disk.installSnapshot (disk : Disk) (m : M) (snapshot : SnapshotMeta) (data : Bytes) : Disk :=
  { disk with
    applied := snapshot.lastLogId
    membership := some snapshot.lastMembership
    snapshotMeta := some snapshot
    machineStateRecord := some (machine.snapshot m)
    snapshotData := some data }

def countOf (position : Option LogId) : Nat := (position.map fun id => id.index + 1).getD 0

def stateAt (history : List Entry) (n : Nat) : Except String M := takeAll machine machine.new (history.take n)

end

end TallyOwl.Raft
