import TallyOwl.Cluster.FanOut
import TallyOwl.Cluster.Ownership

/-! The placement operations of a cell (`clusterservice.rs`). A topology command edits
placement records, and the rows stay in the group of the tablet they were written to. -/
open List TallyOwl.Lib.OrderedMap

namespace TallyOwl.Placement
open Lib Controller FanOut

inductive GroupKey where
  | globalDirectory
  | cellController (cell : String)
  | tablet (name : String)
  deriving DecidableEq

inductive Operation where
  | addReplica (tablet : String) (member : Member)
  | removeReplica (tablet node : String)
  | splitTablet (tablet : String) (atShard : Option Nat)
  | mergeTablets (left right : String)
  | moveTablet (tablet awayFrom onto : String)
  | setReceiptPolicy (tablet policy : String)
  | failOverRegion (tablet ontoRegion : String)
  deriving DecidableEq

structure ClusterAck where
  generation : Nat
  message : Option String
  deriving DecidableEq

/-- What the service works with: the groups its node runs, and how consensus answers. -/
structure Service where
  cell : String
  groups : List GroupKey
  /-- Why the controller group could not commit a command, when it could not. -/
  uncommitted : ControllerCommand → Option TallyOwlError
  addMember : (tablet : String) → Member → Except TallyOwlError Unit
  removeMember : (tablet node : String) → Except TallyOwlError Unit

abbrev Answer := Except TallyOwlError ClusterAck × Topology

def parsePolicy : String → Option ReceiptPolicy
  | "local-one" => some .localOne
  | "local-quorum" => some .localQuorum
  | "remote-one" => some .remoteOne
  | _ => none

def splitPoint (shardStart shardEnd : Nat) : Option Nat :=
  if shardEnd - shardStart < 2 then none else some (shardStart + (shardEnd - shardStart) / 2)

def topologyError : TopologyError → TallyOwlError
  | .notFound message => ⟨.notFound, message⟩
  | .refused message => ⟨.failedPrecondition, message⟩
  | .alreadyDone message => ⟨.alreadyExists, message⟩

/-- What a quorum says of a command it committed and could not apply. -/
def refusedReason : TopologyError → TallyOwlError
  | .notFound message | .refused message | .alreadyDone message => ⟨.failedPrecondition, message⟩

namespace Service
variable (service : Service)

def holds (key : GroupKey) : Bool := key ∈ service.groups

def groupCount : Nat := service.groups.length

def hasQuorum : Bool := service.holds (.cellController service.cell)

/-- Apply one topology change, through the controller group where the cell has one. -/
def apply (topology : Topology) (command : ControllerCommand) : Except TallyOwlError Nat × Topology :=
  if service.hasQuorum then
    match service.uncommitted command with
    | some e => (.error e, topology)
    | none =>
        let (outcome, after) := topology.apply command
        (outcome.mapError refusedReason, after)
  else
    let (outcome, after) := topology.apply command
    (outcome.mapError topologyError, after)

def run (topology : Topology) (command : ControllerCommand) : Answer :=
  match service.apply topology command with
  | (.ok generation, after) => (.ok ⟨generation, none⟩, after)
  | (.error e, after) => (.error e, after)

def addReplica (topology : Topology) (tablet : String) (member : Member) : Answer :=
  match if service.holds (.tablet tablet) then service.addMember tablet member else .ok () with
  | .error e => (.error e, topology)
  | .ok () => service.run topology (.addReplica tablet member)

/-- The topology first: it holds the rule that a group may not lose its last voter. -/
def removeReplica (topology : Topology) (tablet node : String) : Answer :=
  let (outcome, after) := service.run topology (.removeReplica tablet node)
  match if service.holds (.tablet tablet) then service.removeMember tablet node else .ok () with
  | .error e => (.error e, after)
  | .ok () => (outcome, after)

def notBuiltYet (what tablet : String) : TallyOwlError :=
  ⟨.failedPrecondition, s!"`{what}` is not built yet, so `{tablet}` was not changed. The operation would record the change and nothing would carry it out: no replica would be created and no segment would be copied. To put a replica on another node, use `add-replica` and then `remove-replica`."⟩

/-- Refuse a placement change that nothing on this node would carry out. -/
def needsAnExecutor (what tablet : String) : Option TallyOwlError :=
  if service.groupCount = 0 then none else some (notBuiltYet what tablet)

def split (topology : Topology) (tablet : String) (atShard : Option Nat) : Answer :=
  match service.needsAnExecutor "split-tablet" tablet with
  | some refused => (.error refused, topology)
  | none =>
      match topology.tablets.get? tablet with
      | none => (.error ⟨.notFound, s!"No tablet is named `{tablet}`."⟩, topology)
      | some found =>
          match atShard.or (splitPoint found.shardStart found.shardEnd) with
          | none =>
              (.error ⟨.failedPrecondition,
                s!"`{tablet}` owns one virtual shard and cannot be split any further."⟩, topology)
          | some atShard => service.run topology (.splitTablet tablet atShard s!"{tablet}-b")

def merge (topology : Topology) (left right : String) : Answer :=
  service.run topology (.mergeTablets left right)

/-- A move starts with a state. The placement changes when the copy is proved. -/
def moveTablet (topology : Topology) (tablet awayFrom onto : String) : Answer :=
  match service.needsAnExecutor "move-tablet" tablet with
  | some refused => (.error refused, topology)
  | none =>
      match topology.tablets.get? tablet, topology.nodes.get? onto with
      | none, _ => (.error ⟨.notFound, s!"No tablet is named `{tablet}`."⟩, topology)
      | _, none => (.error ⟨.notFound, s!"No node is named `{onto}`."⟩, topology)
      | some found, some target =>
          if found.member awayFrom = none then
            (.error ⟨.notFound, s!"`{awayFrom}` does not hold `{tablet}`."⟩, topology)
          else
            match service.apply topology (.setTabletState tablet .moving) with
            | (.error e, after) => (.error e, after)
            | (.ok generation, after) =>
                (.ok ⟨generation, some s!"`{tablet}` is moving from `{awayFrom}` to `{target.name}`. It keeps serving reads and writes, and placement changes only after every segment is copied and verified."⟩, after)

def setPolicy (topology : Topology) (tablet policy : String) : Answer :=
  match parsePolicy policy with
  | none =>
      (.error ⟨.invalidArgument,
        s!"`{policy}` is not a receipt policy. Use `local-one`, `local-quorum`, or `remote-one`."⟩, topology)
  | some policy => service.run topology (.setReceiptPolicy tablet policy)

def dispatch (topology : Topology) : Operation → Answer
  | .addReplica tablet member => service.addReplica topology tablet member
  | .removeReplica tablet node => service.removeReplica topology tablet node
  | .splitTablet tablet atShard => service.split topology tablet atShard
  | .mergeTablets left right => service.merge topology left right
  | .moveTablet tablet awayFrom onto => service.moveTablet topology tablet awayFrom onto
  | .setReceiptPolicy tablet policy => service.setPolicy topology tablet policy
  | .failOverRegion tablet ontoRegion => service.run topology (.failOverRegion tablet ontoRegion)

end Service

/-! What a scan of the cluster reads. -/

abbrev GroupRows := String → List EventRow

/-- Every readable tablet is asked, and its group answers with its rows. -/
def scanRows (rows : GroupRows) (topology : Topology) : List EventRow :=
  topology.readableTablets.flatMap fun t => rows t.name

/-- Every tablet whose group holds rows is still asked, and a scan reads the same rows. -/
structure KeepsAnswers (rows : GroupRows) (before after : Topology) : Prop where
  asked : ∀ t ∈ before.readableTablets, rows t.name ≠ [] → ∃ u ∈ after.readableTablets, u.name = t.name
  same : scanRows rows after = scanRows rows before

/-- The operation merges away a tablet that still answers reads and whose group holds rows. -/
def MergesRowsAway (rows : GroupRows) (topology : Topology) : Operation → Prop
  | .mergeTablets _ right => rows right ≠ [] ∧
      ∃ found, topology.tablets.get? right = some found ∧ found.state ≠ .retired
  | _ => False

/-! What an accepted operation does to the topology. -/

/-- The topology command an operation comes to on a node that runs groups. -/
inductive Edits : Operation → ControllerCommand → Prop where
  | add (tablet : String) (member : Member) : Edits (.addReplica tablet member) (.addReplica tablet member)
  | remove (tablet node : String) : Edits (.removeReplica tablet node) (.removeReplica tablet node)
  | merge (left right : String) : Edits (.mergeTablets left right) (.mergeTablets left right)
  | judge (tablet text : String) (policy : ReceiptPolicy) :
      Edits (.setReceiptPolicy tablet text) (.setReceiptPolicy tablet policy)
  | failOver (tablet ontoRegion : String) :
      Edits (.failOverRegion tablet ontoRegion) (.failOverRegion tablet ontoRegion)

section
variable {service : Service} {topology after : Topology} {ack : ClusterAck}

theorem run_accepted {command : ControllerCommand} (accepted : service.run topology command = (.ok ack, after)) :
    topology.apply command = (.ok ack.generation, after) := by
  cases applied : topology.apply command with
  | mk outcome changed =>
    unfold Service.run Service.apply at accepted
    by_cases quorum : service.hasQuorum
    · rw [if_pos quorum] at accepted
      cases lost : service.uncommitted command with
      | some e => simp [lost] at accepted
      | none =>
        cases outcome with
        | error e => simp [lost, applied, Except.mapError] at accepted
        | ok generation =>
          simp only [lost, applied, Except.mapError] at accepted
          cases accepted
          rfl
    · rw [if_neg quorum] at accepted
      cases outcome with
      | error e => simp [applied, Except.mapError] at accepted
      | ok generation =>
        simp only [applied, Except.mapError] at accepted
        cases accepted
        rfl

theorem dispatch_accepted {op : Operation} (running : service.groupCount ≠ 0)
    (accepted : service.dispatch topology op = (.ok ack, after)) :
    ∃ command, Edits op command ∧ topology.apply command = (.ok ack.generation, after) := by
  cases op with
  | addReplica tablet member =>
    simp only [Service.dispatch, Service.addReplica] at accepted
    split at accepted
    · cases accepted
    · exact ⟨_, .add tablet member, run_accepted accepted⟩
  | removeReplica tablet node =>
    simp only [Service.dispatch, Service.removeReplica] at accepted
    split at accepted
    · cases accepted
    · exact ⟨_, .remove tablet node, run_accepted accepted⟩
  | splitTablet tablet atShard =>
    simp [Service.dispatch, Service.split, Service.needsAnExecutor, running] at accepted
  | mergeTablets left right => exact ⟨_, .merge left right, run_accepted accepted⟩
  | moveTablet tablet awayFrom onto =>
    simp [Service.dispatch, Service.moveTablet, Service.needsAnExecutor, running] at accepted
  | setReceiptPolicy tablet text =>
    simp only [Service.dispatch, Service.setPolicy] at accepted
    split at accepted
    · cases accepted
    · rename_i policy _
      exact ⟨_, .judge tablet text policy, run_accepted accepted⟩
  | failOverRegion tablet ontoRegion => exact ⟨_, .failOver tablet ontoRegion, run_accepted accepted⟩

theorem apply_accepted {command : ControllerCommand} {generation : Nat}
    (accepted : topology.apply command = (.ok generation, after)) :
    ∃ changed, (topology.applyInner command).1 = .ok changed := by
  unfold Topology.apply at accepted
  cases inner : topology.applyInner command with
  | mk outcome changed =>
    cases outcome with
    | error e => simp [inner] at accepted
    | ok changed => exact ⟨changed, rfl⟩

theorem merge_erases {left right : String} {generation : Nat}
    (merged : topology.apply (.mergeTablets left right) = (.ok generation, after)) :
    after.tablets.get? right = none := by
  have tablets := tablets_apply topology (.mergeTablets left right)
  obtain ⟨changed, ok⟩ := apply_accepted merged
  rw [merged] at tablets
  rw [tablets]
  simp only [Topology.applyInner, Topology.mergeTablets] at ok ⊢
  cases hereRight : topology.tablets.get? right with
  | none => simp [hereRight] at ok
  | some r =>
    cases hereLeft : topology.tablets.get? left with
    | none => simp [hereRight, hereLeft] at ok
    | some l =>
      by_cases hole : l.shardEnd ≠ r.shardStart
      · simp [hereRight, hereLeft, hole] at ok
      · by_cases apart : l.members.map Member.node ≠ r.members.map Member.node
        · simp [hereRight, hereLeft, hole, apart] at ok
        · simp [hole, apart, get?_erase]

end

/-! What the readable tablets answer. -/

/-- What each readable tablet answers with, where it answers with anything. -/
def answering (rows : GroupRows) (tablets : Tablets) : OrderedMap String (List EventRow) :=
  (tablets.filter fun name t => t.state ≠ .retired && !(rows name).isEmpty).mapValues fun name _ => rows name

section
variable {rows : GroupRows} {tablets : Tablets} {name : String}

theorem mem_answering {answer : List EventRow} : (name, answer) ∈ (answering rows tablets).entries ↔
    ∃ t, tablets.get? name = some t ∧ t.state ≠ .retired ∧ rows name ≠ [] ∧ answer = rows name := by
  simp only [answering, OrderedMap.mapValues, mem_map, OrderedMap.mem_filter, Prod.exists,
    Prod.mk.injEq, ← get?_eq_some]
  constructor
  · rintro ⟨name, t, ⟨there, kept⟩, rfl, rfl⟩
    simp only [Bool.and_eq_true, decide_eq_true_eq, Bool.not_eq_true', isEmpty_eq_false_iff] at kept
    exact ⟨t, there, kept.1, kept.2, rfl⟩
  · rintro ⟨t, there, live, holds, rfl⟩
    exact ⟨name, t, ⟨there, by simp [live, holds]⟩, rfl, rfl⟩

theorem answering_eq {others : Tablets} (same : ∀ name, rows name ≠ [] →
    ((∃ t, tablets.get? name = some t ∧ t.state ≠ .retired) ↔ ∃ t, others.get? name = some t ∧ t.state ≠ .retired)) :
    answering rows tablets = answering rows others := by
  refine ext_of_mem fun ⟨name, answer⟩ => ?_
  rw [mem_answering, mem_answering]
  by_cases holds : rows name = []
  · simp [holds]
  · have live := same name holds
    constructor
    · rintro ⟨t, there, readable, -, rfl⟩
      obtain ⟨u, here, still⟩ := live.mp ⟨t, there, readable⟩
      exact ⟨u, here, still, holds, rfl⟩
    · rintro ⟨t, there, readable, -, rfl⟩
      obtain ⟨u, here, still⟩ := live.mpr ⟨t, there, readable⟩
      exact ⟨u, here, still, holds, rfl⟩

theorem answering_insert {found t : Tablet} (there : tablets.get? name = some found)
    (state : t.state = found.state) : answering rows (tablets.insert name t) = answering rows tablets := by
  refine answering_eq fun other _ => ?_
  rw [get?_insert]
  by_cases same : other = name
  · subst same
    simp [there, state]
  · simp [same]

theorem answering_erase (silent : ∀ found, tablets.get? name = some found → found.state ≠ .retired →
    rows name = []) : answering rows (tablets.erase name) = answering rows tablets := by
  refine answering_eq fun other holds => ?_
  rw [get?_erase]
  by_cases same : other = name
  · subst same
    simp only [if_true, reduceCtorEq, false_and, exists_false, false_iff, not_exists, not_and]
    intro found there live
    exact holds (silent found there live)
  · simp [same]

theorem scanRows_eq {topology : Topology} (formed : Formed topology.tablets) :
    scanRows rows topology = (answering rows topology.tablets).values.flatten := by
  have named : ∀ x ∈ topology.tablets.entries, x.2.name = x.1 := by
    intro x inside
    exact formed.named x.1 x.2 (get?_eq_some.mpr inside)
  simp only [scanRows, Topology.readableTablets, OrderedMap.values, answering, OrderedMap.mapValues,
    OrderedMap.filter, map_map]
  generalize topology.tablets.entries = entries at named
  induction entries with
  | nil => rfl
  | cons x rest ih =>
    have later := ih fun y inside => named y (mem_cons_of_mem x inside)
    have name := named x mem_cons_self
    by_cases live : x.2.state = .retired
    · simpa [live] using later
    · by_cases empty : rows x.1 = []
      · simpa [live, empty, name] using later
      · simpa [live, empty, name] using later

theorem keepsAnswers_of_answering {before after : Topology} (formed : Formed before.tablets)
    (kept : Formed after.tablets) (same : answering rows after.tablets = answering rows before.tablets) :
    KeepsAnswers rows before after := by
  constructor
  · intro t readable holds
    simp only [Topology.readableTablets, List.mem_filter, decide_eq_true_eq] at readable
    obtain ⟨inside, live⟩ := readable
    obtain ⟨name, there⟩ := mem_values_iff.mp inside
    have named := formed.named name t there
    have answers : (name, rows name) ∈ (answering rows after.tablets).entries := by
      rw [same]
      exact mem_answering.mpr ⟨t, there, live, named ▸ holds, rfl⟩
    obtain ⟨u, here, still, -, -⟩ := mem_answering.mp answers
    refine ⟨u, ?_, (kept.named name u here).trans named.symm⟩
    simp only [Topology.readableTablets, List.mem_filter, decide_eq_true_eq]
    exact ⟨mem_values_iff.mpr ⟨name, here⟩, still⟩
  · rw [scanRows_eq kept, scanRows_eq formed, same]

end

section
variable {rows : GroupRows} {op : Operation} {command : ControllerCommand}

theorem answering_change {tablets after : Tablets} (formed : Formed tablets) (edits : Edits op command)
    (change : Change tablets command after)
    (spared : ∀ left right, op = .mergeTablets left right → ∀ found, tablets.get? right = some found →
      found.state ≠ .retired → rows right = []) : answering rows after = answering rows tablets := by
  cases change with
  | same => rfl
  | created low fresh free legal => cases edits
  | reseated there how => exact answering_insert there rfl
  | restated there other => cases edits
  | failedOver there other replica => exact answering_insert there rfl
  | split there fresh low high => cases edits
  | merged hereLeft hereRight adjacent same =>
    rename_i left right l r
    cases edits
    have other : right ≠ left := by
      rintro rfl
      obtain rfl := Option.some.inj (hereLeft.symm.trans hereRight)
      have := formed.ranged right l hereLeft
      omega
    refine (answering_erase fun found there live => ?_).trans (answering_insert hereLeft rfl)
    rw [get?_insert, if_neg other] at there
    exact spared left right rfl found there live
  | marked there other => cases edits
  | cleared there => cases edits

end

/-- Where tablets run as groups, an accepted placement operation keeps every answer exactly
where it merges no readable tablet away whose group holds rows. -/
theorem placement_keeps_answers (commands : List ControllerCommand) (service : Service)
    (running : service.groupCount ≠ 0) (rows : GroupRows) (op : Operation) (ack : ClusterAck) (after : Topology)
    (accepted : service.dispatch (Topology.new.run commands) op = (.ok ack, after)) :
    KeepsAnswers rows (Topology.new.run commands) after ↔ ¬ MergesRowsAway rows (Topology.new.run commands) op := by
  have formed := Topology.formed_run Topology.formed_new commands
  generalize Topology.new.run commands = topology at formed accepted
  obtain ⟨command, edits, applied⟩ := dispatch_accepted running accepted
  have change := apply_change topology command
  rw [applied] at change
  have kept := formed_change formed change
  constructor
  · intro keeps merges
    cases edits with
    | merge left right =>
      obtain ⟨holds, found, there, live⟩ := merges
      have named := formed.named right found there
      obtain ⟨u, readable, same⟩ := keeps.asked found (by
        simp only [Topology.readableTablets, List.mem_filter, decide_eq_true_eq]
        exact ⟨OrderedMap.mem_values_iff.mpr ⟨right, there⟩, live⟩) (by rw [named]; exact holds)
      obtain ⟨name, here⟩ := OrderedMap.mem_values_iff.mp (List.mem_of_mem_filter readable)
      have gone := merge_erases applied
      rw [← named, ← same, kept.named name u here, here] at gone
      cases gone
    | _ => exact merges
  · intro spared
    refine keepsAnswers_of_answering formed kept (answering_change formed edits change ?_)
    rintro left right rfl found there live
    by_contra holds
    exact spared ⟨holds, found, there, live⟩

def twoTablets : List ControllerCommand := [Topology.plain "a" 0 8, Topology.plain "b" 8 16]

/-- A node that runs the groups of both, in a cell with no controller quorum. -/
def oneNode : Service :=
  ⟨"cell", [.tablet "a", .tablet "b"], fun _ => none, fun _ _ => .ok (), fun _ _ => .ok ()⟩

def rowIn (tablet : String) : GroupRows :=
  fun name => if name = tablet then [EventRow.new 7 "event" "view" 5] else []

theorem placement_keeps_answers_policy :
    (oneNode.dispatch (Topology.new.run twoTablets) (.setReceiptPolicy "b" "local-one")).1 = .ok ⟨3, none⟩ ∧
      KeepsAnswers (rowIn "b") (Topology.new.run twoTablets)
        (oneNode.dispatch (Topology.new.run twoTablets) (.setReceiptPolicy "b" "local-one")).2 :=
  ⟨by decide, (placement_keeps_answers twoTablets oneNode (by decide) (rowIn "b")
    (.setReceiptPolicy "b" "local-one") ⟨3, none⟩ _ (Prod.ext (by decide) rfl)).mpr id⟩

/-- The right tablet of a merge held a row, and no scan asks for it again. -/
theorem merge_shortens_answers :
    (oneNode.dispatch (Topology.new.run twoTablets) (.mergeTablets "a" "b")).1 = .ok ⟨3, none⟩ ∧
      ¬ KeepsAnswers (rowIn "b") (Topology.new.run twoTablets)
        (oneNode.dispatch (Topology.new.run twoTablets) (.mergeTablets "a" "b")).2 := by
  refine ⟨by decide, fun keeps => ?_⟩
  have length := congrArg List.length keeps.same
  revert length
  decide

end TallyOwl.Placement
