import Mathlib.Data.Finset.Card
import TallyOwl.Cluster.GroupStorage
import TallyOwl.Lib.Runs
import TallyOwl.Lib.Stamped

/-! The voters of one group: elections, appends and commits as the algorithm makes them, with
the vote hold of a voter that came back without its disk around two of its handlers
(`deliver_vote`, `deliver_append`). Positions are counts of entries, one above the source's
indices, and zero is no entry. -/
namespace TallyOwl.Election
open Lib Raft

/-- A term and the node that asks to lead it, in the order votes are compared. -/
abbrev Ballot := ℕ ×ₗ ℕ

def holder (ballot : Ballot) : Nat := (ofLex ballot).2

def ballotOf (entry : Entry) : Ballot := toLex (entry.logId.term, entry.logId.node)

def ballotAt (log : List Entry) : Nat → Option Ballot
  | 0 => none
  | count + 1 => (log[count]?).map ballotOf

inductive Role where
  | follower
  | candidate
  | leader
  deriving DecidableEq

structure Replica where
  ballot : Ballot
  accepted : Bool
  role : Role
  log : List Entry
  commit : Nat
  holding : Bool
  /-- The newest ballot it ever took part in, also before it lost its disk. Nothing reads it. -/
  top : Ballot

def Replica.new : Replica := ⟨toLex (0, 0), false, .follower, [], 0, false, toLex (0, 0)⟩

/-- A candidate's request. Of the log, only its last entry is read. -/
structure VoteRequest where
  ballot : Ballot
  log : List Entry
  deriving DecidableEq

/-- A vote that was given, with the log the voter had then, which nothing reads. -/
structure Grant where
  voter : Nat
  ballot : Ballot
  log : List Entry

structure AppendRequest where
  ballot : Ballot
  prev : Nat
  prevBallot : Option Ballot
  entries : List Entry
  leaderCommit : Nat
  deriving DecidableEq

/-- A voter persisted the first entries of the ballot's leader. -/
structure Ack where
  voter : Nat
  ballot : Ballot
  count : Nat

structure Commit where
  ballot : Ballot
  entries : List Entry
  quorum : Finset Nat

/-- The voters and every message that was sent, which may arrive late, twice or never. -/
structure World where
  voters : Nat → Replica
  requests : List VoteRequest
  grants : List Grant
  appends : List AppendRequest
  acks : List Ack
  canon : Ballot → Option (List Entry)
  lost : Option Nat
  committed : List Commit

def World.new : World := ⟨fun _ => .new, [], [], [], [], fun _ => none, none, []⟩

def Majority (voters quorum : Finset Nat) : Prop := quorum ⊆ voters ∧ voters.card < 2 * quorum.card

instance (voters quorum : Finset Nat) : Decidable (Majority voters quorum) :=
  inferInstanceAs (Decidable (_ ∧ _))

inductive Event where
  | campaign (voter : Nat)
  | observe (voter : Nat) (ballot : Ballot)
  | deliverVote (voter : Nat) (request : VoteRequest)
  | lead (voter : Nat) (quorum : Finset Nat)
  | propose (voter : Nat) (payload : EntryPayload)
  | send (voter : Nat) (prev length : Nat)
  | deliverAppend (voter : Nat) (request : AppendRequest) (cleared : Bool)
  | commit (voter : Nat) (count : Nat) (quorum : Finset Nat)
  | restart (voter : Nat)
  | lose (voter : Nat)

namespace Replica
variable (replica : Replica)

/-- A vote is given to a ballot that is no older, whose log is no older. -/
def grants (request : VoteRequest) : Prop :=
  (replica.ballot < request.ballot ∨ replica.ballot = request.ballot ∧ replica.accepted = false) ∧
    upToDate ballotOf request.log replica.log = true

instance (request : VoteRequest) : Decidable (replica.grants request) := inferInstanceAs (Decidable (_ ∧ _))

def takes (request : AppendRequest) : Prop :=
  ballotAt replica.log request.prev = request.prevBallot

instance (request : AppendRequest) : Decidable (replica.takes request) := inferInstanceAs (Decidable (_ = _))

def stored (request : AppendRequest) : List Entry :=
  store ballotOf replica.log request.prev request.entries

/-- The end of a hold: the log now reaches what the leader had committed. -/
def reaches (request : AppendRequest) : Prop :=
  0 < request.leaderCommit - 1 ∧ request.leaderCommit - 1 ≤ (replica.stored request).length - 1

instance (request : AppendRequest) : Decidable (replica.reaches request) := inferInstanceAs (Decidable (_ ∧ _))

def adopt (ballot : Ballot) (accepted : Bool) : Replica :=
  { replica with ballot, accepted, role := .follower, top := max replica.top ballot }

/-- An append that is taken. A hold ends with it, if its file could be removed. -/
def append (request : AppendRequest) (cleared : Bool) : Replica :=
  { replica.adopt request.ballot true with
    log := replica.stored request
    commit := max replica.commit (min request.leaderCommit (request.prev + request.entries.length))
    holding := replica.holding && !(decide (replica.reaches request) && cleared) }

def proposed (payload : EntryPayload) : List Entry :=
  replica.log ++ [⟨⟨(ofLex replica.ballot).1, (ofLex replica.ballot).2, replica.log.length⟩, payload⟩]

def next (voter : Nat) : Ballot := toLex ((ofLex replica.ballot).1 + 1, voter)

end Replica

def World.set (world : World) (voter : Nat) (replica : Replica) : World :=
  { world with voters := Function.update world.voters voter replica }

def step (members : Finset Nat) (world : World) : Event → Option World
  | .campaign voter =>
      let replica := world.voters voter
      let ballot := replica.next voter
      if voter ∈ members then
        some { world.set voter { replica.adopt ballot false with role := .candidate } with
          requests := world.requests ++ [⟨ballot, replica.log⟩]
          grants := world.grants ++ [⟨voter, ballot, replica.log⟩] }
      else none
  | .observe voter ballot =>
      if (world.voters voter).ballot < ballot ∧ ∃ request ∈ world.requests, request.ballot = ballot then
        some (world.set voter ((world.voters voter).adopt ballot false))
      else none
  | .deliverVote voter request =>
      let replica := world.voters voter
      if request ∈ world.requests ∧ voter ≠ holder request.ballot ∧ replica.holding = false ∧
          replica.grants request then
        some { world.set voter (replica.adopt request.ballot false) with
          grants := world.grants ++ [⟨voter, request.ballot, replica.log⟩] }
      else none
  | .lead voter quorum =>
      let replica := world.voters voter
      if replica.role = .candidate ∧ Majority members quorum ∧
          ∀ other ∈ quorum, ∃ grant ∈ world.grants, grant.voter = other ∧ grant.ballot = replica.ballot then
        some { world.set voter { replica with role := .leader, accepted := true } with
          canon := Function.update world.canon replica.ballot (some replica.log) }
      else none
  | .propose voter payload =>
      let replica := world.voters voter
      if replica.role = .leader then
        some { world.set voter { replica with log := replica.proposed payload } with
          canon := Function.update world.canon replica.ballot (some (replica.proposed payload))
          acks := world.acks ++ [⟨voter, replica.ballot, replica.log.length + 1⟩] }
      else none
  | .send voter prev length =>
      let replica := world.voters voter
      if replica.role = .leader ∧ prev + length ≤ replica.log.length then
        some { world with
          appends := world.appends ++
            [⟨replica.ballot, prev, ballotAt replica.log prev, (replica.log.drop prev).take length,
              replica.commit⟩] }
      else none
  | .deliverAppend voter request cleared =>
      let replica := world.voters voter
      if request ∈ world.appends ∧ voter ≠ holder request.ballot ∧ replica.ballot ≤ request.ballot then
        if replica.takes request then
          some { world.set voter (replica.append request cleared) with
            acks := world.acks ++ [⟨voter, request.ballot, request.prev + request.entries.length⟩] }
        else some (world.set voter (replica.adopt request.ballot true))
      else none
  | .commit voter count quorum =>
      let replica := world.voters voter
      if replica.role = .leader ∧ Majority members quorum ∧ ballotAt replica.log count = some replica.ballot ∧
          ∀ other ∈ quorum, ∃ ack ∈ world.acks,
            ack.voter = other ∧ ack.ballot = replica.ballot ∧ count ≤ ack.count then
        some { world.set voter { replica with commit := max replica.commit count } with
          committed :=
            if world.lost = none then world.committed ++ [⟨replica.ballot, replica.log.take count, quorum⟩]
            else world.committed }
      else none
  | .restart voter => some (world.set voter { world.voters voter with role := .follower })
  | .lose voter =>
      if world.lost = none ∧ voter ∈ members then
        some { world.set voter { Replica.new with holding := true, top := (world.voters voter).top } with
          lost := some voter }
      else none

/-- No later leader lacks an entry that was committed before the loss. -/
def Protected (world : World) : Prop :=
  ∀ commit ∈ world.committed, ∀ voter, (world.voters voter).role = .leader →
    commit.ballot ≤ (world.voters voter).ballot → commit.entries <+: (world.voters voter).log

/-- A held voter does not campaign, and its hold is ended only by a leader that is no older
than what it promised before, with a request that reaches every entry that was committed
with its acknowledgement. -/
def Awaited (world : World) : Event → Prop
  | .campaign voter => (world.voters voter).holding = false
  | .deliverAppend voter request cleared =>
      let replica := world.voters voter
      replica.holding = true → replica.takes request → replica.reaches request → cleared = true →
        replica.top ≤ request.ballot ∧ ∀ commit ∈ world.committed, voter ∈ commit.quorum →
          commit.entries.length ≤ request.prev + request.entries.length
  | _ => True

instance (world : World) : (event : Event) → Decidable (Awaited world event)
  | .campaign voter => inferInstanceAs (Decidable ((world.voters voter).holding = false))
  | .deliverAppend _ _ _ => inferInstanceAs (Decidable (_ → _ → _ → _ → _ ∧ _))
  | .observe _ _ | .deliverVote _ _ | .lead _ _ | .propose _ _ | .send _ _ _ | .commit _ _ _ | .restart _
  | .lose _ => inferInstanceAs (Decidable True)

end TallyOwl.Election
