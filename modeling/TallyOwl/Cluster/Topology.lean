import TallyOwl.Lib.OrderedMap
import Mathlib.Data.String.Basic

/-! What the cell controller quorum knows, and the commands that change it (`topology.rs`).
A command returns whether it changed anything, beside the state it leaves. -/
namespace TallyOwl.Controller
open Lib

def virtualShards : Nat := 4096

inductive MemberRole where
  | voter
  | learner
  deriving DecidableEq

structure Member where
  node : String
  role : MemberRole
  address : String
  region : String
  domain : String
  deriving DecidableEq

def Member.voter (node address : String) : Member := ⟨node, .voter, address, "home", "default"⟩

def Member.learner (node address : String) : Member := { Member.voter node address with role := .learner }

inductive TabletState where
  | active
  | splitting
  | merging
  | moving
  | draining
  | retired
  deriving DecidableEq

inductive ReceiptPolicy where
  | localOne
  | localQuorum
  | remoteOne
  deriving DecidableEq

structure DegradedMark where
  since : Int
  rangeStart : Int
  rangeEnd : Int
  survivorWatermark : Nat
  reason : String
  auditId : String
  deriving DecidableEq

/-- One tablet: what it owns, who holds it, and what has happened to it. -/
structure Tablet where
  name : String
  cell : String
  writeRegion : String
  epoch : Nat
  state : TabletState
  shardStart : Nat
  shardEnd : Nat
  members : List Member
  receiptPolicy : ReceiptPolicy
  degraded : Option DegradedMark
  deriving DecidableEq

namespace Tablet

def voters (t : Tablet) : List Member := t.members.filter (·.role = .voter)

def voterCount (t : Tablet) : Nat := t.voters.length

def member (t : Tablet) (node : String) : Option Member := t.members.find? (·.node = node)

def owns (t : Tablet) (shard : Nat) : Bool := t.shardStart ≤ shard ∧ shard < t.shardEnd

def writable (t : Tablet) : Bool :=
  match t.state with
  | .active | .splitting | .merging | .moving => true
  | .draining | .retired => false

end Tablet

structure Cell where
  name : String
  region : String
  controllers : List Member
  deriving DecidableEq

inductive NodeState where
  | healthy
  | slow
  | unreachable
  | readOnly
  | draining
  deriving DecidableEq

structure Node where
  name : String
  address : String
  region : String
  domain : String
  state : NodeState
  cause : Option String
  since : Int
  writable : Bool
  freeBytes : Nat
  deriving DecidableEq

inductive TopologyError where
  | notFound (message : String)
  | refused (message : String)
  | alreadyDone (message : String)
  deriving DecidableEq

inductive ControllerCommand where
  | registerNode (node address region domain : String)
  | setNodeCondition (node : String) (state : NodeState) (cause : Option String) (moment : Int)
      (writable : Bool) (freeBytes : Nat)
  | registerCell (cell region : String) (controllers : List Member)
  | createTablet (tablet cell region : String) (shardStart shardEnd : Nat) (members : List Member)
      (receiptPolicy : ReceiptPolicy)
  | addReplica (tablet : String) (member : Member)
  | removeReplica (tablet node : String)
  | moveReplica (tablet awayFrom : String) (onto : Member)
  | setTabletState (tablet : String) (state : TabletState)
  | splitTablet (tablet : String) (atShard : Nat) (right : String)
  | mergeTablets (left right : String)
  | setReceiptPolicy (tablet : String) (policy : ReceiptPolicy)
  | failOverRegion (tablet ontoRegion : String)
  | markDegraded (tablet : String) (mark : DegradedMark)
  | clearDegraded (tablet acceptedBy reason : String) (moment : Int)
  deriving DecidableEq

structure AuditRecord where
  auditId : String
  moment : Int
  what : String
  detail : String
  deriving DecidableEq

abbrev Tablets := OrderedMap String Tablet

structure Topology where
  generation : Nat
  cells : OrderedMap String Cell
  tablets : Tablets
  nodes : OrderedMap String Node
  audit : List AuditRecord

def Topology.new : Topology := ⟨0, ∅, ∅, ∅, []⟩

/-- The first writable tablet that owns a shard, and otherwise the last draining one. -/
def ownerFrom (shard : Nat) : List Tablet → (draining : Option Tablet) → Option Tablet
  | [], draining => draining
  | t :: rest, draining =>
      if t.state = .retired ∨ t.owns shard = false then ownerFrom shard rest draining
      else if t.writable then some t
      else ownerFrom shard rest (some t)

def Topology.ownerOf (topology : Topology) (shard : Nat) : Option Tablet :=
  ownerFrom shard topology.tablets.values none

/-- Every tablet a query must ask: a draining one still answers reads. -/
def Topology.readableTablets (topology : Topology) : List Tablet :=
  topology.tablets.values.filter fun t => t.state ≠ .retired

/-- What an arm decides about the tablet it names: leave it, or put another in its place. -/
abbrev Decision := Except TopologyError (Option Tablet)

abbrev Outcome := Except TopologyError Bool × Topology

def noTablet (name : String) : TopologyError := .notFound s!"No tablet is named `{name}`."

/-- `local-one` is for a tablet of one voter. -/
def checkPolicy (policy : ReceiptPolicy) (voters : Nat) (tablet : String) : Except TopologyError Unit :=
  if policy = .localOne ∧ voters > 1 then
    .error (.refused (s!"`{tablet}` has {voters} voters, and `local-one` acknowledges a write before the " ++
      "group commits it. Use `local-quorum` or `remote-one`."))
  else .ok ()

/-! The arms that change one tablet. -/

def addMember (found : Tablet) (member : Member) : Decision :=
  if found.member member.node = some member then .ok none
  else .ok (some { found with members := found.members.filter (·.node ≠ member.node) ++ [member] })

def removeMember (found : Tablet) (tablet node : String) : Decision :=
  match found.member node with
  | none => .ok none
  | some leaving => do
      if leaving.role = .voter then
        if found.voterCount - 1 = 0 then
          .error (.refused (s!"Removing `{node}` would leave `{tablet}` with no voter, and a tablet with no " ++
            "voter accepts no write."))
        else checkPolicy found.receiptPolicy (found.voterCount - 1) tablet
      .ok (some { found with members := found.members.filter (·.node ≠ node) })

def moveMember (found : Tablet) (tablet awayFrom : String) (onto : Member) : Decision :=
  if found.member awayFrom = none then
    -- the move already applied, which is where a replayed entry lands
    if found.member onto.node ≠ none then .ok none
    else .error (.notFound s!"`{awayFrom}` does not hold `{tablet}`.")
  else
    .ok (some { found with members :=
      (found.members.filter (·.node ≠ awayFrom)).filter (·.node ≠ onto.node) ++ [onto] })

def setState (found : Tablet) (state : TabletState) : Decision :=
  if found.state = state then .ok none else .ok (some { found with state })

def setPolicy (found : Tablet) (tablet : String) (policy : ReceiptPolicy) : Decision :=
  if found.receiptPolicy = policy then .ok none
  else do
    checkPolicy policy found.voterCount tablet
    .ok (some { found with receiptPolicy := policy })

def failOver (found : Tablet) (tablet ontoRegion : String) : Decision :=
  if found.writeRegion = ontoRegion then .ok none
  else if found.members.any (·.region = ontoRegion) then
    .ok (some { found with writeRegion := ontoRegion, epoch := found.epoch + 1 })
  else
    .error (.refused (s!"`{tablet}` has no replica in `{ontoRegion}`, so that region cannot become its write " ++
      "region. Add a replica there first."))

namespace Topology
variable (topology : Topology)

def onTablet (name : String) (decide : Tablet → Decision) : Outcome :=
  match topology.tablets.get? name with
  | none => (.error (noTablet name), topology)
  | some found =>
      match decide found with
      | .error e => (.error e, topology)
      | .ok none => (.ok false, topology)
      | .ok (some changed) => (.ok true, { topology with tablets := topology.tablets.insert name changed })

def registerNode (node address region domain : String) : Outcome :=
  match topology.nodes.get? node with
  | some existing =>
      if existing.address = address ∧ existing.region = region ∧ existing.domain = domain then
        (.ok false, topology)
      else
        (.ok true, { topology with nodes := topology.nodes.insert node { existing with address, region, domain } })
  | none =>
      (.ok true, { topology with
        nodes := topology.nodes.insert node ⟨node, address, region, domain, .healthy, none, 0, true, 0⟩ })

def setNodeCondition (node : String) (state : NodeState) (cause : Option String) (moment : Int)
    (writable : Bool) (freeBytes : Nat) : Outcome :=
  match topology.nodes.get? node with
  | none => (.error (.notFound s!"No node is named `{node}`."), topology)
  | some existing =>
      if existing.state = state ∧ existing.cause = cause ∧ existing.writable = writable ∧
          existing.freeBytes = freeBytes then
        (.ok false, topology)
      else
        let since := if existing.state ≠ state then moment else existing.since
        (.ok true, { topology with
          nodes := topology.nodes.insert node { existing with since, state, cause, writable, freeBytes } })

def registerCell (cell region : String) (controllers : List Member) : Outcome :=
  if topology.cells.get? cell = some ⟨cell, region, controllers⟩ then (.ok false, topology)
  else (.ok true, { topology with cells := topology.cells.insert cell ⟨cell, region, controllers⟩ })

def holder (shardStart shardEnd : Nat) : Option Tablet :=
  topology.tablets.values.find? fun t =>
    t.state ≠ .retired ∧ t.shardStart < shardEnd ∧ shardStart < t.shardEnd

def createTablet (tablet cell region : String) (shardStart shardEnd : Nat) (members : List Member)
    (receiptPolicy : ReceiptPolicy) : Outcome :=
  if shardStart ≥ shardEnd then
    (.error (.refused (s!"A tablet's shard range must not be empty. `{tablet}` was asked for " ++
      s!"{shardStart}..{shardEnd}.")), topology)
  else if topology.tablets.get? tablet ≠ none then
    (.error (.alreadyDone s!"A tablet named `{tablet}` already exists."), topology)
  else
    match topology.holder shardStart shardEnd with
    | some other =>
        (.error (.refused (s!"Shards {shardStart}..{shardEnd} already belong to `{other.name}`. " ++
          "A shard has one owner.")), topology)
    | none =>
        match checkPolicy receiptPolicy (members.filter (·.role = .voter)).length tablet with
        | .error e => (.error e, topology)
        | .ok () =>
            let fresh : Tablet :=
              ⟨tablet, cell, region, 1, .active, shardStart, shardEnd, members, receiptPolicy, none⟩
            (.ok true, { topology with tablets := topology.tablets.insert tablet fresh })

def splitTablet (tablet : String) (atShard : Nat) (right : String) : Outcome :=
  if topology.tablets.get? right ≠ none then
    (.error (.alreadyDone s!"A tablet named `{right}` already exists."), topology)
  else
    match topology.tablets.get? tablet with
    | none => (.error (noTablet tablet), topology)
    | some parent =>
        if atShard ≤ parent.shardStart ∨ atShard ≥ parent.shardEnd then
          (.error (.refused (s!"`{tablet}` owns {parent.shardStart}..{parent.shardEnd} and cannot split at " ++
            s!"{atShard}. A split point must be inside the range and must leave both sides holding at " ++
            "least one shard.")), topology)
        else
          let child := { parent with name := right, shardStart := atShard, state := .active }
          let parent := { parent with shardEnd := atShard, state := .active }
          (.ok true, { topology with tablets := (topology.tablets.insert tablet parent).insert right child })

def mergeTablets (left right : String) : Outcome :=
  match topology.tablets.get? right with
  | none => (.error (noTablet right), topology)
  | some r =>
      match topology.tablets.get? left with
      | none => (.error (noTablet left), topology)
      | some l =>
          if l.shardEnd ≠ r.shardStart then
            (.error (.refused (s!"`{left}` and `{right}` are not adjacent, so merging them would leave a hole. " ++
              s!"`{left}` ends at {l.shardEnd} and `{right}` starts at {r.shardStart}.")), topology)
          else if l.members.map Member.node ≠ r.members.map Member.node then
            (.error (.refused (s!"`{left}` and `{right}` are held by different nodes. Move one onto the other's " ++
              "replica set before merging.")), topology)
          else
            let merged := { l with
              shardEnd := r.shardEnd
              degraded := if l.degraded = none then r.degraded else l.degraded }
            (.ok true, { topology with tablets := (topology.tablets.insert left merged).erase right })

def withAudit (record : AuditRecord) : Topology :=
  if topology.audit.any (·.auditId = record.auditId) then topology
  else { topology with audit := topology.audit ++ [record] }

def markDegraded (tablet : String) (mark : DegradedMark) : Outcome :=
  match topology.tablets.get? tablet with
  | none => (.error (noTablet tablet), topology)
  | some found =>
      if found.degraded = some mark then (.ok false, topology)
      else
        (.ok true, withAudit
          { topology with tablets := topology.tablets.insert tablet { found with degraded := some mark } }
          ⟨mark.auditId, mark.since, s!"unsafe recovery of `{tablet}`",
            s!"The survivor held watermark {mark.survivorWatermark}. Writes the lost voters committed past it " ++
              s!"are gone. Reason: {mark.reason}"⟩)

def clearDegraded (tablet acceptedBy reason : String) (moment : Int) : Outcome :=
  match topology.tablets.get? tablet with
  | none => (.error (noTablet tablet), topology)
  | some found =>
      if found.degraded = none then (.ok false, topology)
      else
        (.ok true, withAudit
          { topology with tablets := topology.tablets.insert tablet { found with degraded := none } }
          ⟨s!"cleared-{tablet}-{moment}", moment, s!"degraded mark cleared on `{tablet}`",
            s!"{acceptedBy} accepted the loss. Reason: {reason}"⟩)

def applyInner : ControllerCommand → Outcome
  | .registerNode node address region domain => topology.registerNode node address region domain
  | .setNodeCondition node state cause moment writable freeBytes =>
      topology.setNodeCondition node state cause moment writable freeBytes
  | .registerCell cell region controllers => topology.registerCell cell region controllers
  | .createTablet tablet cell region shardStart shardEnd members receiptPolicy =>
      topology.createTablet tablet cell region shardStart shardEnd members receiptPolicy
  | .addReplica tablet member => topology.onTablet tablet fun found => addMember found member
  | .removeReplica tablet node => topology.onTablet tablet fun found => removeMember found tablet node
  | .moveReplica tablet awayFrom onto =>
      topology.onTablet tablet fun found => moveMember found tablet awayFrom onto
  | .setTabletState tablet state => topology.onTablet tablet fun found => setState found state
  | .splitTablet tablet atShard right => topology.splitTablet tablet atShard right
  | .mergeTablets left right => topology.mergeTablets left right
  | .setReceiptPolicy tablet policy => topology.onTablet tablet fun found => setPolicy found tablet policy
  | .failOverRegion tablet ontoRegion => topology.onTablet tablet fun found => failOver found tablet ontoRegion
  | .markDegraded tablet mark => topology.markDegraded tablet mark
  | .clearDegraded tablet acceptedBy reason moment => topology.clearDegraded tablet acceptedBy reason moment

/-- Apply one command. The generation rises on every accepted change. -/
def apply (command : ControllerCommand) : Except TopologyError Nat × Topology :=
  match topology.applyInner command with
  | (.error e, after) => (.error e, after)
  | (.ok changed, after) =>
      let after := if changed then { after with generation := after.generation + 1 } else after
      (.ok after.generation, after)

/-- The state a list of commands leaves. A refused command is one of them. -/
def run (commands : List ControllerCommand) : Topology :=
  commands.foldl (fun topology command => (topology.apply command).2) topology

end Topology

/-! What a command can do to the tablets. -/

/-- The members and the policy a command gives the tablet it names. -/
inductive Seated : ControllerCommand → String → Tablet → List Member → ReceiptPolicy → Prop where
  | added {name : String} {found : Tablet} {member : Member}
      (fresh : found.member member.node ≠ some member) :
      Seated (.addReplica name member) name found
        (found.members.filter (·.node ≠ member.node) ++ [member]) found.receiptPolicy
  | removed {name node : String} {found : Tablet} {leaving : Member}
      (there : found.member node = some leaving)
      (left : leaving.role = .voter → found.voterCount - 1 ≠ 0) :
      Seated (.removeReplica name node) name found (found.members.filter (·.node ≠ node)) found.receiptPolicy
  | moved {name awayFrom : String} {found : Tablet} {onto : Member}
      (there : found.member awayFrom ≠ none) :
      Seated (.moveReplica name awayFrom onto) name found
        ((found.members.filter (·.node ≠ awayFrom)).filter (·.node ≠ onto.node) ++ [onto]) found.receiptPolicy
  | judged {name : String} {found : Tablet} {policy : ReceiptPolicy}
      (legal : policy = .localOne → found.voterCount ≤ 1) :
      Seated (.setReceiptPolicy name policy) name found found.members policy

inductive Change (tablets : Tablets) : ControllerCommand → Tablets → Prop where
  | same (command : ControllerCommand) : Change tablets command tablets
  | created {name cell region : String} {shardStart shardEnd : Nat} {members : List Member}
      {policy : ReceiptPolicy} (some : shardStart < shardEnd) (fresh : tablets.get? name = none)
      (free : ∀ other t, tablets.get? other = .some t → t.state ≠ .retired →
        shardEnd ≤ t.shardStart ∨ t.shardEnd ≤ shardStart)
      (legal : policy = .localOne → (members.filter (·.role = .voter)).length ≤ 1) :
      Change tablets (.createTablet name cell region shardStart shardEnd members policy)
        (tablets.insert name ⟨name, cell, region, 1, .active, shardStart, shardEnd, members, policy, none⟩)
  | reseated {command : ControllerCommand} {name : String} {found : Tablet} {members : List Member}
      {policy : ReceiptPolicy} (there : tablets.get? name = some found)
      (how : Seated command name found members policy) :
      Change tablets command (tablets.insert name { found with members, receiptPolicy := policy })
  | restated {name : String} {found : Tablet} {state : TabletState}
      (there : tablets.get? name = some found) (other : found.state ≠ state) :
      Change tablets (.setTabletState name state) (tablets.insert name { found with state })
  | failedOver {name ontoRegion : String} {found : Tablet} (there : tablets.get? name = some found)
      (other : found.writeRegion ≠ ontoRegion) (replica : found.members.any (·.region = ontoRegion)) :
      Change tablets (.failOverRegion name ontoRegion)
        (tablets.insert name { found with writeRegion := ontoRegion, epoch := found.epoch + 1 })
  | split {name right : String} {atShard : Nat} {parent : Tablet}
      (there : tablets.get? name = some parent) (fresh : tablets.get? right = none)
      (low : parent.shardStart < atShard) (high : atShard < parent.shardEnd) :
      Change tablets (.splitTablet name atShard right)
        ((tablets.insert name { parent with shardEnd := atShard, state := .active }).insert right
          { parent with name := right, shardStart := atShard, state := .active })
  | merged {left right : String} {l r : Tablet} (hereLeft : tablets.get? left = some l)
      (hereRight : tablets.get? right = some r) (adjacent : l.shardEnd = r.shardStart)
      (same : l.members.map Member.node = r.members.map Member.node) :
      Change tablets (.mergeTablets left right)
        ((tablets.insert left { l with
          shardEnd := r.shardEnd
          degraded := if l.degraded = none then r.degraded else l.degraded }).erase right)
  | marked {name : String} {mark : DegradedMark} {found : Tablet}
      (there : tablets.get? name = some found) (other : found.degraded ≠ some mark) :
      Change tablets (.markDegraded name mark) (tablets.insert name { found with degraded := some mark })
  | cleared {name acceptedBy reason : String} {moment : Int} {found : Tablet}
      (there : tablets.get? name = some found) :
      Change tablets (.clearDegraded name acceptedBy reason moment)
        (tablets.insert name { found with degraded := none })

theorem checkPolicy_ok {policy : ReceiptPolicy} {voters : Nat} {tablet : String}
    (ok : checkPolicy policy voters tablet = .ok ()) : policy = .localOne → voters ≤ 1 := by
  intro one
  unfold checkPolicy at ok
  split at ok
  · cases ok
  · rename_i legal
    by_contra many
    exact legal ⟨one, by omega⟩

section
variable (topology : Topology)

theorem tablets_onTablet (name : String) (decide : Tablet → Decision) :
    (topology.onTablet name decide).2.tablets = topology.tablets ∨
      ∃ found changed, topology.tablets.get? name = some found ∧ decide found = .ok (some changed) ∧
        (topology.onTablet name decide).2.tablets = topology.tablets.insert name changed := by
  unfold Topology.onTablet
  split
  · exact .inl rfl
  · rename_i found there
    split
    · exact .inl rfl
    · exact .inl rfl
    · rename_i changed decided
      exact .inr ⟨found, changed, there, decided, rfl⟩

variable {found changed : Tablet} {name : String}

theorem seated_addMember {member : Member} (decided : addMember found member = .ok (some changed)) : ∃ members policy,
      Seated (.addReplica name member) name found members policy ∧
        changed = { found with members, receiptPolicy := policy } := by
  unfold addMember at decided
  split at decided
  · cases decided
  · rename_i fresh
    obtain rfl := Option.some.inj (Except.ok.inj decided)
    exact ⟨_, _, .added fresh, rfl⟩

theorem seated_removeMember {name node : String}
    (decided : removeMember found name node = .ok (some changed)) : ∃ members policy,
      Seated (.removeReplica name node) name found members policy ∧
        changed = { found with members, receiptPolicy := policy } := by
  unfold removeMember at decided
  split at decided
  · cases decided
  · rename_i leaving there
    by_cases voter : leaving.role = .voter
    · by_cases last : found.voterCount - 1 = 0
      · simp [voter, last, bind, Except.bind] at decided
      · cases judged : checkPolicy found.receiptPolicy (found.voterCount - 1) name with
        | error e => simp [voter, last, judged, bind, Except.bind] at decided
        | ok _ =>
          simp only [voter, last, judged, bind, Except.bind, if_true, if_false] at decided
          obtain rfl := Option.some.inj (Except.ok.inj decided)
          exact ⟨_, _, .removed there fun _ => last, rfl⟩
    · simp only [voter, if_false, bind, Except.bind] at decided
      obtain rfl := Option.some.inj (Except.ok.inj decided)
      exact ⟨_, _, .removed there fun is => (voter is).elim, rfl⟩

theorem seated_moveMember {name awayFrom : String} {onto : Member}
    (decided : moveMember found name awayFrom onto = .ok (some changed)) : ∃ members policy,
      Seated (.moveReplica name awayFrom onto) name found members policy ∧
        changed = { found with members, receiptPolicy := policy } := by
  unfold moveMember at decided
  split at decided
  · split at decided <;> cases decided
  · rename_i there
    obtain rfl := Option.some.inj (Except.ok.inj decided)
    exact ⟨_, _, .moved there, rfl⟩

theorem seated_setPolicy {policy : ReceiptPolicy}
    (decided : setPolicy found name policy = .ok (some changed)) : ∃ members judged,
      Seated (.setReceiptPolicy name policy) name found members judged ∧
        changed = { found with members, receiptPolicy := judged } := by
  unfold setPolicy at decided
  split at decided
  · cases decided
  · cases judged : checkPolicy policy found.voterCount name with
    | error e => simp [judged, bind, Except.bind] at decided
    | ok _ =>
      simp only [judged, bind, Except.bind] at decided
      obtain rfl := Option.some.inj (Except.ok.inj decided)
      exact ⟨_, _, .judged (checkPolicy_ok judged), rfl⟩

@[simp] theorem tablets_withAudit (record : AuditRecord) : (topology.withAudit record).tablets = topology.tablets := by
  unfold Topology.withAudit
  split <;> rfl

theorem change_onTablet {command : ControllerCommand} {decide : Tablet → Decision}
    (seated : ∀ found changed, decide found = .ok (some changed) → ∃ members policy,
      Seated command name found members policy ∧ changed = { found with members, receiptPolicy := policy }) :
    Change topology.tablets command (topology.onTablet name decide).2.tablets := by
  rcases tablets_onTablet topology name decide with same | ⟨found, changed, there, decided, after⟩
  · rw [same]
    exact .same command
  · obtain ⟨members, policy, how, rfl⟩ := seated found changed decided
    rw [after]
    exact .reseated there how

end

theorem tablets_apply (topology : Topology) (command : ControllerCommand) :
    (topology.apply command).2.tablets = (topology.applyInner command).2.tablets := by
  unfold Topology.apply
  split
  · rename_i e after found
    rw [found]
  · rename_i changed after found
    rw [found]
    cases changed <;> rfl

theorem apply_change (topology : Topology) (command : ControllerCommand) :
    Change topology.tablets command (topology.apply command).2.tablets := by
  rw [tablets_apply]
  cases command with
  | registerNode node address region domain =>
    simp only [Topology.applyInner, Topology.registerNode]
    split
    · split <;> exact .same _
    · exact .same _
  | setNodeCondition node state cause moment writable freeBytes =>
    simp only [Topology.applyInner, Topology.setNodeCondition]
    split
    · exact .same _
    · split <;> exact .same _
  | registerCell cell region controllers =>
    simp only [Topology.applyInner, Topology.registerCell]
    split <;> exact .same _
  | createTablet tablet cell region shardStart shardEnd members policy =>
    simp only [Topology.applyInner, Topology.createTablet]
    split
    · exact .same _
    · split
      · exact .same _
      · split
        · exact .same _
        · split
          · exact .same _
          · rename_i low fresh _ free _ judged
            refine .created (by omega) (not_not.mp fresh) ?_ (checkPolicy_ok judged)
            intro other t there live
            have apart := List.find?_eq_none.mp free t (OrderedMap.mem_values_iff.mpr ⟨other, there⟩)
            simp only [decide_eq_true_eq] at apart
            by_contra overlap
            exact apart ⟨live, by omega, by omega⟩
  | addReplica tablet member => exact change_onTablet topology fun _ _ => seated_addMember
  | removeReplica tablet node => exact change_onTablet topology fun _ _ => seated_removeMember
  | moveReplica tablet awayFrom onto => exact change_onTablet topology fun _ _ => seated_moveMember
  | setReceiptPolicy tablet policy => exact change_onTablet topology fun _ _ => seated_setPolicy
  | setTabletState tablet state =>
    rcases tablets_onTablet topology tablet fun found => setState found state with
      same | ⟨found, changed, there, decided, after⟩
    · rw [Topology.applyInner, same]
      exact .same _
    · unfold setState at decided
      split at decided
      · cases decided
      · rename_i other
        obtain rfl := Option.some.inj (Except.ok.inj decided)
        rw [Topology.applyInner, after]
        exact .restated there other
  | failOverRegion tablet ontoRegion =>
    rcases tablets_onTablet topology tablet fun found => failOver found tablet ontoRegion with
      same | ⟨found, changed, there, decided, after⟩
    · rw [Topology.applyInner, same]
      exact .same _
    · unfold failOver at decided
      split at decided
      · cases decided
      · rename_i other
        split at decided
        · rename_i replica
          obtain rfl := Option.some.inj (Except.ok.inj decided)
          rw [Topology.applyInner, after]
          exact .failedOver there other replica
        · cases decided
  | splitTablet tablet atShard right =>
    simp only [Topology.applyInner, Topology.splitTablet]
    split
    · exact .same _
    · split
      · exact .same _
      · split
        · exact .same _
        · rename_i fresh _ parent there inside
          exact .split there (not_not.mp fresh) (by omega) (by omega)
  | mergeTablets left right =>
    simp only [Topology.applyInner, Topology.mergeTablets]
    split
    · exact .same _
    · split
      · exact .same _
      · split
        · exact .same _
        · split
          · exact .same _
          · rename_i _ r hereRight _ l hereLeft adjacent members
            exact .merged hereLeft hereRight (not_not.mp adjacent) (not_not.mp members)
  | markDegraded tablet mark =>
    simp only [Topology.applyInner, Topology.markDegraded]
    split
    · exact .same _
    · split
      · exact .same _
      · rename_i found there other
        rw [tablets_withAudit]
        exact .marked there other
  | clearDegraded tablet acceptedBy reason moment =>
    simp only [Topology.applyInner, Topology.clearDegraded]
    split
    · exact .same _
    · split
      · exact .same _
      · rename_i found there other
        rw [tablets_withAudit]
        exact .cleared there

end TallyOwl.Controller
