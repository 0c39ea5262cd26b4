import TallyOwl.Cluster.Replica
import TallyOwl.Store.Ledger

/-! A tablet replica that dies and applies again (`raft/machine.rs`, `raft/storage.rs`,
`catalog.rs`). The store makes each entry durable on its own, and the applied position and
the marks are written once for a batch. What a crash takes back is applied again over the
store as it is: a commit finds its receipt, and an erasure takes a new generation. -/
namespace TallyOwl
open Lib

def Tombstone.namesSomething (t : Tombstone) : Bool :=
  t.eventIds ≠ [] ∨ t.property.isSome ∨ t.range.isSome

namespace Cluster.Crashes
open Segmented (stamp)
open Ledger (commitTombstone)

inductive TabletCommand where
  | commit (entry : Entry)
  | tombstone (predicate : Tombstone)
  | compactionGeneration (generation : Nat)
  deriving DecidableEq

/-- The marks of a replica, but for the time of its last commit. -/
structure Marks extends TabletMarks where
  tombstoneGeneration : Nat
  compactionGeneration : Nat
  deriving DecidableEq

structure Replica where
  store : Tablet
  erasures : Ledger.State
  marks : Marks
  applied : Nat
  saved : Marks

def Replica.start : Replica := ⟨.empty, .empty, ⟨⟨0, 0⟩, 0, 0⟩, 0, ⟨⟨0, 0⟩, 0, 0⟩⟩

namespace Replica

def atIndex (r : Replica) (index : Nat) : Replica :=
  { r with marks := { r.marks with appliedIndex := index } }

def erase (r : Replica) (t : Tombstone) : Replica :=
  if t.namesSomething then
    let erasures := commitTombstone r.erasures t
    { r with
      erasures
      marks := { r.marks with tombstoneGeneration := erasures.catalog.tombstoneGeneration } }
  else r

def compactBelow (r : Replica) (generation : Nat) : Replica :=
  if generation ≤ r.marks.compactionGeneration then r
  else { r with marks := { r.marks with compactionGeneration := generation } }

def applyEntry (r : Replica) (index : Nat) (now : Int) : TabletCommand → Replica
  | .commit e =>
      match notAlreadyCopied r.marks.toTabletMarks r.store index e.rows with
      | none => r.atIndex index
      | some rows =>
          { r with store := r.store.commit e.key (stamp e.sourceId e.batchId now rows) }.atIndex index
  | .tombstone t => (r.erase t).atIndex index
  | .compactionGeneration generation => (r.compactBelow generation).atIndex index

/-- What the first durable write of an entry leaves where the process dies behind it: the
frame of a commit without its receipt, the ledger record of an erasure without its catalog
record. -/
def begin (r : Replica) (index : Nat) (now : Int) : TabletCommand → Replica
  | .commit e =>
      match notAlreadyCopied r.marks.toTabletMarks r.store index e.rows with
      | none => r
      | some rows =>
          if e.key ∈ r.store.receipts then r
          else { r with store := r.store.extend (stamp e.sourceId e.batchId now rows) }
  | .tombstone t => if t.namesSomething then { r with erasures := Ledger.record r.erasures t } else r
  | .compactionGeneration _ => r

def applyAll (clock : Nat → Int) (r : Replica) : (index : Nat) → List TabletCommand → Replica
  | _, [] => r
  | index, command :: commands =>
      applyAll clock (r.applyEntry (index + 1) (clock index) command) (index + 1) commands

end Replica

/-- One call of the consensus layer, or a crash in the middle of one. -/
inductive Event where
  | apply (count : Nat) (clock : Nat → Int)
  /-- The next entries are applied, the one behind them may be begun, and the process dies
  before the position is written. -/
  | crash (count : Nat) (midway : Bool) (clock : Nat → Int)

section
variable (log : List TabletCommand)

def batchOf (applied count : Nat) : List TabletCommand := (log.drop applied).take count

namespace Replica
variable (r : Replica)

def applyBatch (count : Nat) (clock : Nat → Int) : Replica :=
  let batch := batchOf log r.applied count
  if batch = [] then r
  else
    let done := r.applyAll clock r.applied batch
    { done with applied := r.applied + batch.length, saved := done.marks }

def dies (count : Nat) (midway : Bool) (clock : Nat → Int) : Replica :=
  let batch := batchOf log r.applied count
  let done := r.applyAll clock r.applied batch
  let index := r.applied + batch.length
  match log[index]? with
  | some next => if midway then done.begin (index + 1) (clock index) next else done
  | none => done

def step : Event → Replica
  | .apply count clock => r.applyBatch log count clock
  | .crash count midway clock =>
      let dead := r.dies log count midway clock
      { dead with store := dead.store.reopen, marks := dead.saved }

def run (events : List Event) : Replica := events.foldl (fun r event => r.step log event) r

end Replica

def uncrashed : Replica := Replica.start.step log (.apply log.length fun _ => 0)

def untimed (rows : List EventRow) : List EventRow := rows.map fun row => { row with committedAt := 0 }

def heldOf (r : Replica) (e : Entry) : List EventRow :=
  r.store.held.filter fun row => (row.sourceId, row.batchId) = e.key

/-- A replica is where one that never crashed is, and stores the rows of each batch once. -/
structure Agrees (r : Replica) : Prop where
  marks : r.marks = (uncrashed log).marks
  generation : r.erasures.catalog.tombstoneGeneration = (uncrashed log).erasures.catalog.tombstoneGeneration
  records : r.erasures.catalog.tombstones = (uncrashed log).erasures.catalog.tombstones
  once : ∀ e, .commit e ∈ log → untimed (heldOf r e) = untimed (stamp e.sourceId e.batchId 0 e.rows)

end

end Cluster.Crashes

end TallyOwl
