import TallyOwl.Cluster.Directory
import TallyOwl.Cluster.Ownership

/-! The consensus layer replays entries, so a command applied twice must be the command
applied once. Every arm lands where it changes nothing the second time, but the one that
moves a replica onto the node it is on: it puts the member again and raises the generation
each time. -/
open List TallyOwl.Lib.OrderedMap

namespace TallyOwl.Controller
open Lib

namespace Topology

def raised (topology : Topology) : Topology := { topology with generation := topology.generation + 1 }

theorem apply_state (topology : Topology) (command : ControllerCommand) :
    (topology.apply command).2 = counted raised (topology.applyInner command) := by
  unfold apply
  split
  · rename_i found
    rw [found]
    rfl
  · rename_i changed after found
    rw [found]
    cases changed <;> rfl

theorem apply_refused {topology : Topology} {command : ControllerCommand} {e : TopologyError}
    (refused : (topology.apply command).1 = .error e) : (topology.applyInner command).1 = .error e := by
  unfold apply at refused
  split at refused
  · rename_i found
    rw [found]
    exact congrArg Except.error (Except.error.inj refused)
  · cases refused

end Topology

section
variable {topology : Topology}

theorem reported_onTablet (name : String) (decide : Tablet → Decision) :
    Reported Topology.generation topology (topology.onTablet name decide) := by
  unfold Topology.onTablet
  split
  · exact .refused _
  · split
    · exact .refused _
    · exact .same
    · exact .changed rfl

theorem generation_withAudit (record : AuditRecord) : (topology.withAudit record).generation = topology.generation := by
  unfold Topology.withAudit
  split <;> rfl

end

theorem honest (command : ControllerCommand) :
    Honest (fun topology => topology.applyInner command) Topology.generation := by
  intro topology
  cases command with
  | registerNode node address region domain =>
    simp only [Topology.applyInner, Topology.registerNode]
    split
    · split
      · exact .same
      · exact .changed rfl
    · exact .changed rfl
  | setNodeCondition node state cause moment writable freeBytes =>
    simp only [Topology.applyInner, Topology.setNodeCondition]
    split
    · exact .refused _
    · split
      · exact .same
      · exact .changed rfl
  | registerCell cell region controllers =>
    simp only [Topology.applyInner, Topology.registerCell]
    split
    · exact .same
    · exact .changed rfl
  | createTablet tablet cell region shardStart shardEnd members policy =>
    simp only [Topology.applyInner, Topology.createTablet]
    split
    · exact .refused _
    · split
      · exact .refused _
      · split
        · exact .refused _
        · split
          · exact .refused _
          · exact .changed rfl
  | addReplica tablet member => exact reported_onTablet _ _
  | removeReplica tablet node => exact reported_onTablet _ _
  | moveReplica tablet awayFrom onto => exact reported_onTablet _ _
  | setTabletState tablet state => exact reported_onTablet _ _
  | setReceiptPolicy tablet policy => exact reported_onTablet _ _
  | failOverRegion tablet ontoRegion => exact reported_onTablet _ _
  | splitTablet tablet atShard right =>
    simp only [Topology.applyInner, Topology.splitTablet]
    split
    · exact .refused _
    · split
      · exact .refused _
      · split
        · exact .refused _
        · exact .changed rfl
  | mergeTablets left right =>
    simp only [Topology.applyInner, Topology.mergeTablets]
    split
    · exact .refused _
    · split
      · exact .refused _
      · split
        · exact .refused _
        · split
          · exact .refused _
          · exact .changed rfl
  | markDegraded tablet mark =>
    simp only [Topology.applyInner, Topology.markDegraded]
    split
    · exact .refused _
    · split
      · exact .same
      · exact .changed (generation_withAudit _)
  | clearDegraded tablet acceptedBy reason moment =>
    simp only [Topology.applyInner, Topology.clearDegraded]
    split
    · exact .refused _
    · split
      · exact .same
      · exact .changed (generation_withAudit _)

def MovesInPlace (tablets : Tablets) : ControllerCommand → Prop
  | .moveReplica name awayFrom onto =>
      onto.node = awayFrom ∧ ∃ found, tablets.get? name = some found ∧ found.member awayFrom ≠ none
  | _ => False

section
variable {topology : Topology}

theorem settled_onTablet {name : String} {decide : Tablet → Decision}
    (settles : ∀ found changed, topology.tablets.get? name = some found → decide found = .ok (some changed) →
      ∀ again, decide changed ≠ .ok (some again)) (changed : (topology.onTablet name decide).1 = .ok true) :
    ((topology.onTablet name decide).2.raised.onTablet name decide).1 ≠ .ok true := by
  unfold Topology.onTablet at changed
  split at changed
  · cases changed
  · rename_i found there
    split at changed
    · cases changed
    · cases changed
    · rename_i put decided
      simp only [Topology.onTablet, there, decided, Topology.raised, get?_insert, if_true]
      have after := settles found put there decided
      split
      · simp
      · simp
      · rename_i again redecided
        exact (after again redecided).elim

theorem find_append {members : List Member} {member : Member} (keep : Member → Bool) :
    ((members.filter keep).filter (·.node ≠ member.node) ++ [member]).find? (·.node = member.node) = some member := by
  have absent : ((members.filter keep).filter (·.node ≠ member.node)).find? (·.node = member.node) = none := by
    refine find?_eq_none.mpr fun m inside => ?_
    simpa using (List.mem_filter.mp inside).2
  rw [find?_append, absent]
  simp

variable {found changed again : Tablet}

theorem settled_addMember {member : Member} (decided : addMember found member = .ok (some changed)) :
    addMember changed member ≠ .ok (some again) := by
  unfold addMember at decided
  split at decided
  · cases decided
  · obtain rfl := Option.some.inj (Except.ok.inj decided)
    have there := @find_append found.members member fun _ => true
    rw [filter_eq_self.mpr fun _ _ => rfl] at there
    unfold addMember Tablet.member
    rw [if_pos there]
    simp

theorem settled_removeMember {name node : String} (decided : removeMember found name node = .ok (some changed)) :
    removeMember changed name node ≠ .ok (some again) := by
  obtain ⟨members, policy, how, rfl⟩ := seated_removeMember decided
  cases how with
  | removed there left =>
    have absent : (found.members.filter (·.node ≠ node)).find? (·.node = node) = none := by
      refine find?_eq_none.mpr fun m inside => ?_
      simpa using (List.mem_filter.mp inside).2
    unfold removeMember Tablet.member
    rw [absent]
    simp

theorem settled_moveMember {name awayFrom : String} {onto : Member}
    (other : onto.node ≠ awayFrom) (decided : moveMember found name awayFrom onto = .ok (some changed)) :
    moveMember changed name awayFrom onto ≠ .ok (some again) := by
  obtain ⟨members, policy, how, rfl⟩ := seated_moveMember decided
  cases how with
  | moved there =>
    have absent : ((found.members.filter (·.node ≠ awayFrom)).filter (·.node ≠ onto.node) ++ [onto]).find?
        (·.node = awayFrom) = none := by
      refine find?_eq_none.mpr fun m inside => ?_
      rcases mem_append.mp inside with old | new
      · simpa using (List.mem_filter.mp (List.mem_filter.mp old).1).2
      · obtain rfl := mem_singleton.mp new
        simpa using other
    unfold moveMember Tablet.member
    rw [if_pos absent, if_pos (by rw [find_append]; simp)]
    simp

theorem settled_setPolicy {name : String} {policy : ReceiptPolicy}
    (decided : setPolicy found name policy = .ok (some changed)) :
    setPolicy changed name policy ≠ .ok (some again) := by
  obtain ⟨members, judged, how, rfl⟩ := seated_setPolicy decided
  cases how with
  | judged legal => simp [setPolicy]

/-! The arms that put or take a tablet find it there, or gone, the second time. -/

theorem settled_createTablet {tablet cell region : String} {shardStart shardEnd : Nat} {members : List Member}
    {policy : ReceiptPolicy}
    (changed : (topology.createTablet tablet cell region shardStart shardEnd members policy).1 = .ok true) :
    ((topology.createTablet tablet cell region shardStart shardEnd members policy).2.raised.createTablet tablet
      cell region shardStart shardEnd members policy).1 ≠ .ok true := by
  have taken : ∀ topology : Topology, topology.tablets.get? tablet ≠ none →
      (topology.createTablet tablet cell region shardStart shardEnd members policy).1 ≠ .ok true := by
    intro topology there
    simp only [Topology.createTablet, if_pos there]
    split <;> simp
  refine taken _ ?_
  unfold Topology.createTablet at changed ⊢
  split at changed
  · cases changed
  · rename_i low
    split at changed
    · cases changed
    · rename_i fresh
      split at changed
      · cases changed
      · rename_i free
        split at changed
        · cases changed
        · rename_i judged
          rw [if_neg low, if_neg fresh]
          simp [Topology.raised, get?_insert]

theorem settled_splitTablet {tablet right : String} {atShard : Nat}
    (changed : (topology.splitTablet tablet atShard right).1 = .ok true) :
    ((topology.splitTablet tablet atShard right).2.raised.splitTablet tablet atShard right).1 ≠ .ok true := by
  have taken : ∀ topology : Topology, topology.tablets.get? right ≠ none →
      (topology.splitTablet tablet atShard right).1 ≠ .ok true := by
    intro topology there
    unfold Topology.splitTablet
    rw [if_pos there]
    simp
  refine taken _ ?_
  unfold Topology.splitTablet at changed ⊢
  split at changed
  · cases changed
  · rename_i fresh
    split at changed
    · cases changed
    · rename_i parent there
      split at changed
      · cases changed
      · rename_i inside
        rw [if_neg fresh, if_neg inside]
        simp [Topology.raised, get?_insert]

theorem settled_mergeTablets {left right : String} (changed : (topology.mergeTablets left right).1 = .ok true) :
    ((topology.mergeTablets left right).2.raised.mergeTablets left right).1 ≠ .ok true := by
  have gone : ∀ topology : Topology, topology.tablets.get? right = none →
      (topology.mergeTablets left right).1 ≠ .ok true := by
    intro topology absent
    unfold Topology.mergeTablets
    rw [absent]
    simp
  refine gone _ ?_
  unfold Topology.mergeTablets at changed ⊢
  split at changed
  · cases changed
  · rename_i r hereRight
    split at changed
    · cases changed
    · rename_i l hereLeft
      split at changed
      · cases changed
      · rename_i adjacent
        split at changed
        · cases changed
        · rename_i members
          simp [if_neg adjacent, if_neg members, Topology.raised, get?_erase]

theorem settled_markDegraded {tablet : String} {mark : DegradedMark}
    (changed : (topology.markDegraded tablet mark).1 = .ok true) :
    ((topology.markDegraded tablet mark).2.raised.markDegraded tablet mark).1 ≠ .ok true := by
  have marked : ∀ (topology : Topology) (found : Tablet), topology.tablets.get? tablet = some found →
      found.degraded = some mark → (topology.markDegraded tablet mark).1 ≠ .ok true := by
    intro topology found there carries
    unfold Topology.markDegraded
    simp [there, carries]
  unfold Topology.markDegraded at changed
  split at changed
  · cases changed
  · rename_i found there
    split at changed
    · cases changed
    · rename_i other
      refine marked _ { found with degraded := some mark } ?_ rfl
      simp [Topology.markDegraded, there, other, Topology.raised, get?_insert]

theorem settled_clearDegraded {tablet acceptedBy reason : String} {moment : Int}
    (changed : (topology.clearDegraded tablet acceptedBy reason moment).1 = .ok true) :
    ((topology.clearDegraded tablet acceptedBy reason moment).2.raised.clearDegraded tablet acceptedBy reason
      moment).1 ≠ .ok true := by
  have clean : ∀ (topology : Topology) (found : Tablet), topology.tablets.get? tablet = some found →
      found.degraded = none → (topology.clearDegraded tablet acceptedBy reason moment).1 ≠ .ok true := by
    intro topology found there carries
    unfold Topology.clearDegraded
    simp [there, carries]
  unfold Topology.clearDegraded at changed
  split at changed
  · cases changed
  · rename_i found there
    split at changed
    · cases changed
    · rename_i other
      refine clean _ { found with degraded := none } ?_ rfl
      simp [Topology.clearDegraded, there, other, Topology.raised, get?_insert]

theorem settled {command : ControllerCommand} (still : ¬ MovesInPlace topology.tablets command)
    (changed : (topology.applyInner command).1 = .ok true) :
    ((topology.applyInner command).2.raised.applyInner command).1 ≠ .ok true := by
  cases command with
  | registerNode node address region domain =>
    simp only [Topology.applyInner, Topology.registerNode] at changed ⊢
    cases here : topology.nodes.get? node with
    | none => simp [Topology.raised, get?_insert]
    | some existing =>
      by_cases same : existing.address = address ∧ existing.region = region ∧ existing.domain = domain
      · simp [here, same] at changed
      · simp [same, Topology.raised, get?_insert]
  | setNodeCondition node state cause moment writable freeBytes =>
    simp only [Topology.applyInner, Topology.setNodeCondition] at changed ⊢
    cases here : topology.nodes.get? node with
    | none => simp [here] at changed
    | some existing =>
      by_cases same : existing.state = state ∧ existing.cause = cause ∧ existing.writable = writable ∧
          existing.freeBytes = freeBytes
      · simp [here, same] at changed
      · simp [same, Topology.raised, get?_insert]
  | registerCell cell region controllers =>
    simp only [Topology.applyInner, Topology.registerCell] at changed ⊢
    by_cases same : topology.cells.get? cell = some ⟨cell, region, controllers⟩
    · simp [same] at changed
    · simp [same, Topology.raised, get?_insert]
  | createTablet tablet cell region shardStart shardEnd members policy => exact settled_createTablet changed
  | addReplica tablet member =>
    exact settled_onTablet (fun _ _ _ decided _ => settled_addMember decided) changed
  | removeReplica tablet node =>
    exact settled_onTablet (fun _ _ _ decided _ => settled_removeMember decided) changed
  | setReceiptPolicy tablet policy =>
    exact settled_onTablet (fun _ _ _ decided _ => settled_setPolicy decided) changed
  | moveReplica tablet awayFrom onto =>
    refine settled_onTablet (fun found _ there decided _ => settled_moveMember ?_ decided) changed
    intro inPlace
    obtain ⟨members, policy, how, -⟩ := @seated_moveMember _ _ tablet _ _ decided
    cases how with
    | moved here => exact still ⟨inPlace, found, there, here⟩
  | setTabletState tablet state =>
    refine settled_onTablet (fun found put _ decided again => ?_) changed
    unfold setState at decided
    split at decided
    · cases decided
    · obtain rfl := Option.some.inj (Except.ok.inj decided)
      simp [setState]
  | failOverRegion tablet ontoRegion =>
    refine settled_onTablet (fun found put _ decided again => ?_) changed
    unfold failOver at decided
    split at decided
    · cases decided
    · split at decided
      · obtain rfl := Option.some.inj (Except.ok.inj decided)
        simp [failOver]
      · cases decided
  | splitTablet tablet atShard right => exact settled_splitTablet changed
  | mergeTablets left right => exact settled_mergeTablets changed
  | markDegraded tablet mark => exact settled_markDegraded changed
  | clearDegraded tablet acceptedBy reason moment => exact settled_clearDegraded changed

theorem moves_again {command : ControllerCommand} (inPlace : MovesInPlace topology.tablets command) :
    (topology.applyInner command).1 = .ok true ∧
      ((topology.applyInner command).2.raised.applyInner command).1 = .ok true := by
  cases command with
  | moveReplica name awayFrom onto =>
    obtain ⟨rfl, found, there, here⟩ := inPlace
    have still : ((found.members.filter (·.node ≠ onto.node)).filter (·.node ≠ onto.node) ++ [onto]).find?
        (·.node = onto.node) ≠ none := by
      rw [find_append]
      simp
    have moves : ∀ (topology : Topology) (found : Tablet), topology.tablets.get? name = some found →
        found.member onto.node ≠ none →
        topology.onTablet name (fun found => moveMember found name onto.node onto) =
          (.ok true, { topology with tablets := topology.tablets.insert name { found with
            members := (found.members.filter (·.node ≠ onto.node)).filter (·.node ≠ onto.node) ++ [onto] } }) := by
      intro topology found there here
      simp only [Topology.onTablet, there, moveMember, if_neg here]
    simp only [Topology.applyInner]
    rw [moves topology found there here]
    refine ⟨rfl, ?_⟩
    have put := (get?_insert topology.tablets name name { found with
      members := (found.members.filter (·.node ≠ onto.node)).filter (·.node ≠ onto.node) ++ [onto] }).trans
        (if_pos rfl)
    exact congrArg Prod.fst (moves (Topology.raised { topology with tablets := _ }) _ put still)
  | _ => exact inPlace.elim

end

namespace Topology

/-- Applying a command twice is applying it once, and a refusal leaves the state. -/
def Replays (topology : Topology) (command : ControllerCommand) : Prop :=
  ((topology.apply command).2.apply command).2 = (topology.apply command).2 ∧
    ∀ e, (topology.apply command).1 = .error e → (topology.apply command).2 = topology

theorem replays_iff (topology : Topology) (command : ControllerCommand) :
    topology.Replays command ↔ ¬ MovesInPlace topology.tablets command := by
  have refusal : ∀ e, (topology.apply command).1 = .error e → (topology.apply command).2 = topology := by
    intro e refused
    have quiet : (topology.applyInner command).1 ≠ .ok true := by
      rw [apply_refused refused]
      simp
    rw [apply_state, counted_quiet quiet, (honest command topology).quiet quiet]
  have twice := @Honest.twice_iff _ _ _ _ raised (honest command) (fun _ => rfl) topology
  unfold Replays
  rw [and_iff_left refusal, apply_state, apply_state, twice]
  constructor
  · intro settles inPlace
    exact settles (moves_again inPlace).1 (moves_again inPlace).2
  · intro still changed
    exact settled still changed

end Topology

end TallyOwl.Controller

namespace TallyOwl.Cluster.Directory
open Lib

/-- Applying a command twice is applying it once, and a refusal leaves the directory. -/
def Replays (directory : Directory) (command : DirectoryCommand) : Prop :=
  ((directory.apply command).2.apply command).2 = (directory.apply command).2 ∧
    ∀ e, (directory.apply command).1 = .error e → (directory.apply command).2 = directory

variable {directory : Directory} {projectId : Id}

theorem settled_assignProject {cells : List String} (changed : (directory.assignProject projectId cells).1 = .ok true) :
    ((directory.assignProject projectId cells).2.raised.assignProject projectId cells).1 ≠ .ok true := by
  have assigned : ∀ directory : Directory,
      (directory.placements.get? projectId).map Placement.cells = some cells →
      (directory.assignProject projectId cells).1 ≠ .ok true := by
    intro directory there
    unfold assignProject
    split
    · simp
    · split
      · simp
      · simp only [if_pos there]
        simp
  refine assigned _ ?_
  unfold assignProject at changed ⊢
  split at changed
  · cases changed
  · rename_i nonempty
    split at changed
    · cases changed
    · dsimp only at changed
      split at changed
      · cases changed
      · rename_i other
        rw [if_neg nonempty]
        simp only [if_neg other, raised, get?_insert, if_true, Option.map_some]

theorem settled_startProjectMove {ontoCell : String}
    (changed : (directory.startProjectMove projectId ontoCell).1 = .ok true) :
    ((directory.startProjectMove projectId ontoCell).2.raised.startProjectMove projectId ontoCell).1 ≠ .ok true := by
  have moving : ∀ (directory : Directory) (placement : Placement),
      directory.placements.get? projectId = some placement → placement.movingTo = some ontoCell →
      (directory.startProjectMove projectId ontoCell).1 ≠ .ok true := by
    intro directory placement there moves
    unfold startProjectMove
    split <;> simp [there, moves]
  unfold startProjectMove at changed
  split at changed
  · cases changed
  · rename_i known
    split at changed
    · cases changed
    · rename_i placement there
      split at changed
      · cases changed
      · rename_i other
        refine moving _ { placement with movingTo := some ontoCell } ?_ rfl
        simp only [startProjectMove, if_neg known, there, if_neg other, raised, get?_insert, if_true]

theorem settled_finishProjectMove (changed : (directory.finishProjectMove projectId).1 = .ok true) :
    ((directory.finishProjectMove projectId).2.raised.finishProjectMove projectId).1 ≠ .ok true := by
  have finished : ∀ (directory : Directory) (placement : Placement),
      directory.placements.get? projectId = some placement → placement.movingTo = none →
      (directory.finishProjectMove projectId).1 ≠ .ok true := by
    intro directory placement there still
    simp [finishProjectMove, there, still]
  unfold finishProjectMove at changed
  split at changed
  · cases changed
  · rename_i placement there
    split at changed
    · cases changed
    · rename_i target moving
      refine finished _ { placement with
        movingTo := none, cells := target :: placement.cells.filter (· ≠ target) } ?_ rfl
      simp only [finishProjectMove, there, moving, raised, get?_insert, if_true]

theorem settled {command : DirectoryCommand} (changed : (directory.applyInner command).1 = .ok true) :
    ((directory.applyInner command).2.raised.applyInner command).1 ≠ .ok true := by
  cases command with
  | registerCell cell region =>
    simp only [applyInner, registerCell] at changed ⊢
    by_cases same : directory.cells.get? cell = some region
    · simp [same] at changed
    · simp [same, raised, get?_insert]
  | assignProject projectId cells => exact settled_assignProject changed
  | startProjectMove projectId ontoCell => exact settled_startProjectMove changed
  | finishProjectMove projectId => exact settled_finishProjectMove changed
  | setGlobalPolicyGeneration generation =>
    simp only [applyInner, setGlobalPolicyGeneration] at changed ⊢
    by_cases same : directory.policyGeneration = generation
    · simp [same] at changed
    · simp [same, raised]

theorem replays (directory : Directory) (command : DirectoryCommand) : directory.Replays command := by
  constructor
  · rw [apply_state, apply_state]
    exact ((honest command).twice_iff (fun _ => rfl) directory).mpr settled
  · intro e refused
    have quiet : (directory.applyInner command).1 ≠ .ok true := by
      rw [apply_refused _ refused]
      simp
    rw [apply_state, counted_quiet quiet, (honest command directory).quiet quiet]

end TallyOwl.Cluster.Directory

namespace TallyOwl.Controller.Topology
open Cluster

/-- In every state a run reaches, a controller command applied twice is the command applied
once exactly where it does not move a replica onto the node it is on, and a directory command
always is. -/
theorem applied_twice_is_applied_once (commands : List ControllerCommand) (command : ControllerCommand)
    (directoryCommands : List DirectoryCommand) (directoryCommand : DirectoryCommand) :
    ((new.run commands).Replays command ↔ ¬ MovesInPlace (new.run commands).tablets command) ∧
      (Directory.new.run directoryCommands).Replays directoryCommand :=
  ⟨(new.run commands).replays_iff command, (Directory.new.run directoryCommands).replays directoryCommand⟩

/-- A move of the replica on `n1` onto `n1` raises the generation again. -/
theorem move_in_place_counts_twice : ¬ (new.run [plain "a" 0 8]).Replays
    (.moveReplica "a" "n1" (Member.voter "n1" "a2")) := by
  rintro ⟨same, -⟩
  exact absurd (congrArg Topology.generation same) (by decide)

end TallyOwl.Controller.Topology
