import TallyOwl.Cluster.Voters
import TallyOwl.Wire.Item

/-! Unsafe recovery (`recovery.rs`): a tablet that lost its quorum for good is left to one survivor. The
members go one at a time under the rules of every removal, so a survivor that is no voter, or a policy that
is for one voter, refuses the list half way. -/
open List TallyOwl.Lib.OrderedMap

namespace TallyOwl.Controller
open Lib

structure UnsafeRequest where
  tablet : String
  confirmTablet : String
  survivor : String
  reason : String
  deriving DecidableEq

structure UnsafeOutcome where
  tablet : String
  auditId : String
  mark : DegradedMark
  commands : List ControllerCommand
  deriving DecidableEq

inductive RecoveryError where
  | invalidArgument (message : String)
  | notFound (message : String)
  deriving DecidableEq

def unsafeMark (request : UnsafeRequest) (survivorWatermark : Nat) (range : Int × Int) (moment : Int) : DegradedMark :=
  ⟨moment, range.1, range.2, survivorWatermark, request.reason, s!"unsafe-{request.tablet}-{moment}"⟩

/-- Force a single-voter membership from a survivor. The membership change and the mark are one list. -/
def unsafeRecover (topology : Topology) (request : UnsafeRequest) (survivorWatermark : Nat) (range : Int × Int)
    (moment : Int) : Except RecoveryError UnsafeOutcome :=
  if request.tablet ≠ request.confirmTablet then
    .error (.invalidArgument (s!"The confirmation names `{request.confirmTablet}` and the tablet is " ++
      s!"`{request.tablet}`. Unsafe recovery can lose an acknowledged write, so it runs only when both names are " ++
      "the same."))
  else if Wire.isBlank request.reason then
    .error (.invalidArgument ("Unsafe recovery needs a reason. It is written to the audit record and it is what " ++
      "somebody reads a year from now."))
  else
    match topology.tablets.get? request.tablet with
    | none => .error (.notFound s!"No tablet is named `{request.tablet}`.")
    | some tablet =>
        match tablet.member request.survivor with
        | none => .error (.notFound (s!"`{request.survivor}` does not hold `{request.tablet}`, so it cannot be the " ++
            "survivor."))
        | some survivor =>
            let mark := unsafeMark request survivorWatermark range moment
            let removals := (tablet.members.filter (·.node ≠ request.survivor)).map fun m =>
              ControllerCommand.removeReplica request.tablet m.node
            .ok ⟨request.tablet, mark.auditId, mark,
              removals ++ [.addReplica request.tablet survivor, .markDegraded request.tablet mark]⟩

def recoveryRecord (tablet : String) (mark : DegradedMark) : AuditRecord :=
  ⟨mark.auditId, mark.since, s!"unsafe recovery of `{tablet}`",
    s!"The survivor held watermark {mark.survivorWatermark}. Writes the lost voters committed past it " ++
      s!"are gone. Reason: {mark.reason}"⟩

namespace Topology

def Accepted (topology : Topology) (command : ControllerCommand) : Prop :=
  ∃ generation, (topology.apply command).1 = .ok generation

/-- The commands of a recovery are never refused, and leave the survivor as the one member, as a voter, with
the mark and its record. -/
def Recovers (topology : Topology) (request : UnsafeRequest) (outcome : UnsafeOutcome) : Prop :=
  Along Accepted topology outcome.commands ∧
    ∃ t m, (topology.run outcome.commands).tablets.get? request.tablet = some t ∧ t.members = [m] ∧
      m.node = request.survivor ∧ m.role = .voter ∧ t.degraded = some outcome.mark ∧
      recoveryRecord request.tablet outcome.mark ∈ (topology.run outcome.commands).audit

variable {topology : Topology}

theorem accepted_iff {command : ControllerCommand} :
    topology.Accepted command ↔ ∃ changed, (topology.applyInner command).1 = .ok changed := by
  unfold Accepted apply
  split
  · rename_i e after found
    rw [found]
    simp
  · rename_i changed after found
    rw [found]
    simp

theorem audit_apply (command : ControllerCommand) :
    (topology.apply command).2.audit = (topology.applyInner command).2.audit := by
  unfold apply
  split
  · rename_i e after found
    rw [found]
  · rename_i changed after found
    rw [found]
    cases changed <;> rfl

end Topology

/-! One removal. -/

/-- A removal of a node is legal: a voter leaves another, and no more than the policy is for. -/
def Leaves (t : Tablet) (node : String) : Prop :=
  ∀ leaving, t.member node = some leaving → leaving.role = .voter →
    t.voterCount - 1 ≠ 0 ∧ (t.receiptPolicy = .localOne → t.voterCount - 1 ≤ 1)

def Tablet.without (t : Tablet) (nodes : List String) : Tablet :=
  { t with members := t.members.filter (·.node ∉ nodes) }

theorem without_cons (t : Tablet) (node : String) (nodes : List String) :
    (t.without [node]).without nodes = t.without (node :: nodes) := by
  simp only [Tablet.without, filter_filter, mem_cons, not_mem_nil, or_false, not_or,
    Bool.decide_and, Bool.and_comm]

theorem without_absent {t : Tablet} {node : String} (absent : t.member node = none) : t.without [node] = t := by
  have kept : t.members.filter (·.node ∉ [node]) = t.members := by
    refine filter_eq_self.mpr fun m inside => ?_
    have other := find?_eq_none.mp absent m inside
    simpa using other
  rw [Tablet.without, kept]

theorem checkPolicy_eq_ok {policy : ReceiptPolicy} {voters : Nat} {tablet : String} :
    checkPolicy policy voters tablet = .ok () ↔ (policy = .localOne → voters ≤ 1) := by
  refine ⟨checkPolicy_ok, fun few => ?_⟩
  rw [checkPolicy, if_neg]
  rintro ⟨one, many⟩
  exact absurd (few one) (by omega)

section
variable {topology : Topology} {name node : String} {t : Tablet}

theorem removeMember_spec (t : Tablet) (name node : String) :
    ((∃ e, removeMember t name node = .error e) ∧ ¬ Leaves t node) ∨
      (Leaves t node ∧ (removeMember t name node = .ok none ∧ t.member node = none ∨
        removeMember t name node = .ok (some (t.without [node])))) := by
  unfold removeMember
  cases there : t.member node with
  | none => exact .inr ⟨fun leaving found => (by rw [there] at found; cases found), .inl ⟨rfl, rfl⟩⟩
  | some leaving =>
    have same : t.members.filter (fun m => decide (m.node ≠ node)) = t.members.filter (·.node ∉ [node]) := by
      simp
    dsimp only
    by_cases voter : leaving.role = .voter
    · by_cases last : t.voterCount - 1 = 0
      · refine .inl ⟨⟨_, by rw [if_pos voter, if_pos last]; rfl⟩, fun leaves => ?_⟩
        exact (leaves leaving there voter).1 last
      · cases judged : checkPolicy t.receiptPolicy (t.voterCount - 1) name with
        | error e =>
          refine .inl ⟨⟨e, by simp [voter, last, bind, Except.bind]⟩, fun leaves => ?_⟩
          rw [checkPolicy_eq_ok.mpr (leaves leaving there voter).2] at judged
          cases judged
        | ok _ =>
          refine .inr ⟨fun other found _ => ⟨last, checkPolicy_ok judged⟩, .inr ?_⟩
          simp only [voter, last, bind, Except.bind, if_true, if_false, Tablet.without, same]
    · refine .inr ⟨fun other found is => ?_, .inr ?_⟩
      · rw [there] at found
        cases found
        exact (voter is).elim
      · simp only [voter, if_false, bind, Except.bind, Tablet.without, same]

theorem removeReplica_spec (held : topology.tablets.get? name = some t) :
    (topology.Accepted (.removeReplica name node) ↔ Leaves t node) ∧
      (Leaves t node → (topology.after (.removeReplica name node)).tablets.get? name = some (t.without [node]) ∧
        (topology.after (.removeReplica name node)).audit = topology.audit) := by
  rw [Topology.accepted_iff, Topology.after, tablets_apply, Topology.audit_apply, Topology.applyInner,
    Topology.onTablet, held]
  dsimp only
  rcases removeMember_spec t name node with ⟨⟨e, refused⟩, illegal⟩ | ⟨legal, ⟨same, absent⟩ | removed⟩
  · rw [refused]
    exact ⟨⟨fun accepted => (by obtain ⟨changed, is⟩ := accepted; cases is), fun legal => (illegal legal).elim⟩,
      fun legal => (illegal legal).elim⟩
  · rw [same]
    exact ⟨⟨fun _ => legal, fun _ => ⟨_, rfl⟩⟩, fun _ => ⟨by rw [without_absent absent, held], rfl⟩⟩
  · rw [removed]
    exact ⟨⟨fun _ => legal, fun _ => ⟨_, rfl⟩⟩, fun _ => ⟨by simp [get?_insert], rfl⟩⟩

theorem removals_spec (nodes : List String) (held : topology.tablets.get? name = some t) :
    (Topology.Along Topology.Accepted topology (nodes.map (.removeReplica name)) ↔
      ∀ before node later, nodes = before ++ node :: later → Leaves (t.without before) node) ∧
      (Topology.Along Topology.Accepted topology (nodes.map (.removeReplica name)) →
        (topology.run (nodes.map (.removeReplica name))).tablets.get? name = some (t.without nodes) ∧
        (topology.run (nodes.map (.removeReplica name))).audit = topology.audit) := by
  have whole (t : Tablet) : t.without [] = t := by simp [Tablet.without]
  induction nodes generalizing topology t with
  | nil =>
    refine ⟨⟨fun _ before node later split => ?_, fun _ => trivial⟩, fun _ => ⟨?_, rfl⟩⟩
    · cases before <;> cases split
    · rw [map_nil, whole]
      exact held
  | cons node nodes ih =>
    obtain ⟨accepted, left⟩ := @removeReplica_spec topology name node t held
    constructor
    · constructor
      · rintro ⟨first, rest⟩ before node' later split
        have legal := accepted.mp first
        cases before with
        | nil =>
          obtain ⟨rfl, -⟩ := List.cons.inj split
          rwa [whole]
        | cons other before =>
          obtain ⟨rfl, tail⟩ := List.cons.inj split
          rw [← without_cons]
          exact (ih (left legal).1).1.mp rest before node' later tail
      · intro each
        have legal : Leaves t node := by
          have own := each [] node nodes rfl
          rwa [whole] at own
        refine ⟨accepted.mpr legal, (ih (left legal).1).1.mpr fun before node' later split => ?_⟩
        rw [without_cons]
        exact each (node :: before) node' later (by rw [split]; rfl)
    · rintro ⟨first, rest⟩
      have legal := accepted.mp first
      obtain ⟨there, audit⟩ := (ih (left legal).1).2 rest
      rw [without_cons] at there
      exact ⟨there, audit.trans (left legal).2⟩

end

/-! Marks and their records. -/

def Recorded (audit : List AuditRecord) (t : Tablet) : Prop :=
  ∀ mark, t.degraded = some mark → ∃ record ∈ audit, record.auditId = mark.auditId

section
variable {topology : Topology}

theorem audit_withAudit (record : AuditRecord) : topology.audit ⊆ (topology.withAudit record).audit ∧
      ∃ other ∈ (topology.withAudit record).audit, other.auditId = record.auditId := by
  unfold Topology.withAudit
  split
  · rename_i known
    obtain ⟨other, inside, same⟩ := any_eq_true.mp known
    exact ⟨fun _ there => there, other, inside, of_decide_eq_true same⟩
  · exact ⟨subset_append_left _ _, record, mem_append_right _ mem_cons_self, rfl⟩

theorem audit_onTablet (name : String) (decide : Tablet → Decision) :
    (topology.onTablet name decide).2.audit = topology.audit := by
  unfold Topology.onTablet
  split
  · rfl
  · split <;> rfl

theorem audit_subset (command : ControllerCommand) : topology.audit ⊆ (topology.applyInner command).2.audit := by
  have same {audit : List AuditRecord} (is : audit = topology.audit) : topology.audit ⊆ audit :=
    is ▸ List.Subset.refl _
  have grown (changed : Topology) (record : AuditRecord) (is : changed.audit = topology.audit) :
      topology.audit ⊆ (changed.withAudit record).audit := is ▸ (audit_withAudit record).1
  cases command with
  | addReplica | removeReplica | moveReplica | setTabletState | setReceiptPolicy | failOverRegion =>
    exact same (audit_onTablet _ _)
  | registerNode =>
    simp only [Topology.applyInner, Topology.registerNode]
    split
    · split <;> exact same rfl
    · exact same rfl
  | setNodeCondition =>
    simp only [Topology.applyInner, Topology.setNodeCondition]
    split
    · exact same rfl
    · split <;> exact same rfl
  | registerCell =>
    simp only [Topology.applyInner, Topology.registerCell]
    split <;> exact same rfl
  | createTablet =>
    simp only [Topology.applyInner, Topology.createTablet]
    split
    · exact same rfl
    · split
      · exact same rfl
      · split
        · exact same rfl
        · split <;> exact same rfl
  | splitTablet =>
    simp only [Topology.applyInner, Topology.splitTablet]
    split
    · exact same rfl
    · split
      · exact same rfl
      · split <;> exact same rfl
  | mergeTablets =>
    simp only [Topology.applyInner, Topology.mergeTablets]
    split
    · exact same rfl
    · split
      · exact same rfl
      · split
        · exact same rfl
        · split <;> exact same rfl
  | markDegraded tablet mark =>
    simp only [Topology.applyInner, Topology.markDegraded]
    split
    · exact same rfl
    · split
      · exact same rfl
      · exact grown _ _ rfl
  | clearDegraded =>
    simp only [Topology.applyInner, Topology.clearDegraded]
    split
    · exact same rfl
    · split
      · exact same rfl
      · exact grown _ _ rfl

theorem recorded_apply (recorded : Every (Recorded topology.audit) topology.tablets) (command : ControllerCommand) :
    Every (Recorded (topology.after command).audit) (topology.after command).tablets := by
  have grown : Every (Recorded (topology.after command).audit) topology.tablets := by
    intro name t there mark marked
    obtain ⟨record, inside, same⟩ := recorded name t there mark marked
    refine ⟨record, ?_, same⟩
    rw [Topology.after, Topology.audit_apply]
    exact audit_subset command inside
  have change : Change topology.tablets command (topology.after command).tablets := apply_change topology command
  generalize after : (topology.after command).tablets = tablets at change
  cases change with
  | same => exact grown
  | created => exact grown.insert fun mark marked => (by cases marked)
  | reseated there _ => exact grown.update there id
  | restated there _ => exact grown.update there id
  | failedOver there _ _ => exact grown.update there id
  | split there _ _ _ =>
    refine (grown.update there ?_).insert ?_
    · exact id
    · exact fun mark marked => grown _ _ there mark marked
  | merged hereLeft hereRight _ _ =>
    refine (grown.insert fun mark marked => ?_).erase _
    dsimp only at marked
    split at marked
    · exact grown _ _ hereRight mark marked
    · exact grown _ _ hereLeft mark marked
  | @marked name mark found there other =>
    refine grown.insert fun same marked => ?_
    cases marked
    rw [Topology.after, Topology.audit_apply, Topology.applyInner, Topology.markDegraded, there]
    dsimp only
    rw [if_neg other]
    exact (audit_withAudit _).2
  | cleared there => exact grown.insert fun mark marked => (by cases marked)

theorem recorded_run (recorded : Every (Recorded topology.audit) topology.tablets) (commands : List ControllerCommand) :
    Every (Recorded (topology.run commands).audit) (topology.run commands).tablets := by
  induction commands generalizing topology with
  | nil => exact recorded
  | cons command commands ih => exact ih (recorded_apply recorded command)

theorem markDegraded_spec {name : String} {t : Tablet} (mark : DegradedMark)
    (recorded : Every (Recorded topology.audit) topology.tablets) (held : topology.tablets.get? name = some t) :
    topology.Accepted (.markDegraded name mark) ∧
      (topology.after (.markDegraded name mark)).tablets.get? name = some { t with degraded := some mark } ∧
      (recoveryRecord name mark ∈ (topology.after (.markDegraded name mark)).audit ↔
        recoveryRecord name mark ∈ topology.audit ∨ ∀ record ∈ topology.audit, record.auditId ≠ mark.auditId) := by
  rw [Topology.accepted_iff, Topology.after, tablets_apply, Topology.audit_apply, Topology.applyInner,
    Topology.markDegraded, held]
  dsimp only
  by_cases same : t.degraded = some mark
  · rw [if_pos same]
    refine ⟨⟨_, rfl⟩, ?_, ?_⟩
    · rw [held, ← same]
    · refine ⟨.inl, fun either => either.resolve_right fun none => ?_⟩
      obtain ⟨record, inside, own⟩ := recorded name t held mark same
      exact none record inside own
  · rw [if_neg same]
    refine ⟨⟨_, rfl⟩, ?_, ?_⟩
    · rw [tablets_withAudit]
      simp [get?_insert]
    · unfold Topology.withAudit
      split
      · rename_i known
        obtain ⟨record, inside, own⟩ := any_eq_true.mp known
        exact ⟨.inl, fun either => either.resolve_right fun none => none record inside (of_decide_eq_true own)⟩
      · rename_i fresh
        refine ⟨fun _ => .inr fun record inside own => fresh ?_, fun _ => ?_⟩
        · exact any_eq_true.mpr ⟨record, inside, decide_eq_true own⟩
        · exact mem_append_right _ mem_cons_self

end

/-! The survivor. -/

section
variable {t : Tablet} {name survivor : String} {s : Member}

theorem member_without (t : Tablet) (gone : List String) (node : String) :
    (t.without gone).member node = if node ∈ gone then none else t.member node := by
  unfold Tablet.member Tablet.without
  rw [find?_filter]
  split
  · rename_i inside
    refine find?_eq_none.mpr fun m _ => ?_
    simp only [decide_eq_true_eq, not_and]
    rintro kept rfl
    exact kept inside
  · rename_i outside
    congr 1
    funext m
    by_cases own : m.node = node
    · simp [own, outside]
    · simp [own]

def others (t : Tablet) (survivor : String) : List String := (t.members.filter (·.node ≠ survivor)).map Member.node

theorem without_others (t : Tablet) (survivor : String) :
    (t.without (others t survivor)).members = t.members.filter (·.node = survivor) := by
  refine filter_congr fun m inside => ?_
  simp only [decide_eq_decide]
  constructor
  · intro kept
    by_contra other
    exact kept (mem_map.mpr ⟨m, List.mem_filter.mpr ⟨inside, by simpa using other⟩, rfl⟩)
  · rintro own there
    obtain ⟨other, kept, same⟩ := mem_map.mp there
    have apart := (List.mem_filter.mp kept).2
    rw [same, own] at apart
    simp at apart

/-- Each voter goes when at most two are left. Nodes that are listed again count with their first entry. -/
def LastTwo (t : Tablet) (survivor : String) : Prop :=
  ∀ before m later, t.members.filter (·.node ≠ survivor) = before ++ m :: later →
    m.node ∉ before.map Member.node → m.role = .voter → (t.without (before.map Member.node)).voterCount ≤ 2

theorem member_fresh {before later : List Member} {m : Member}
    (split : t.members.filter (·.node ≠ survivor) = before ++ m :: later) (fresh : m.node ∉ before.map Member.node) :
    m.node ≠ survivor ∧ t.member m.node = some m := by
  have inside : m ∈ t.members.filter (·.node ≠ survivor) := by
    rw [split]
    exact mem_append_right _ mem_cons_self
  have other : m.node ≠ survivor := by simpa using (List.mem_filter.mp inside).2
  have found : (t.members.filter (·.node ≠ survivor)).find? (·.node = m.node) = some m := by
    rw [split, find?_append, find?_eq_none.mpr, Option.none_or, find?_cons_of_pos (by simp)]
    intro x there same
    exact fresh (mem_map.mpr ⟨x, there, by simpa using same⟩)
  refine ⟨other, ?_⟩
  rw [find?_filter] at found
  rw [← found, Tablet.member]
  congr 1
  funext x
  by_cases own : x.node = m.node
  · simp [own, other]
  · simp [own]

theorem leaves_iff_lastTwo (once : t.members.filter (·.node = survivor) = [s]) (voter : s.role = .voter) :
    (∀ before node later, others t survivor = before ++ node :: later → Leaves (t.without before) node) ↔
      (t.receiptPolicy = .localOne → LastTwo t survivor) := by
  have member : s ∈ t.members ∧ s.node = survivor := by
    have inside : s ∈ t.members.filter (·.node = survivor) := by
      rw [once]
      exact mem_cons_self
    simpa using List.mem_filter.mp inside
  constructor
  · intro legal one before m later split fresh votes
    obtain ⟨other, found⟩ := member_fresh split fresh
    have leaves := legal (before.map Member.node) m.node (later.map Member.node) (by rw [others, split]; simp)
    have few := (leaves m (by rw [member_without, if_neg fresh, found]) votes).2 one
    omega
  · intro lastTwo before node later split leaving found votes
    obtain ⟨first, rest, whole, rfl, tail⟩ := map_eq_append_iff.mp split
    obtain ⟨m, last, rfl, rfl, -⟩ := map_eq_cons_iff.mp tail
    have fresh : m.node ∉ first.map Member.node := by
      intro gone
      rw [member_without, if_pos gone] at found
      cases found
    obtain ⟨other, own⟩ := member_fresh whole fresh
    rw [member_without, if_neg fresh, own] at found
    obtain rfl := Option.some.inj found
    refine ⟨?_, fun one => ?_⟩
    · have kept (x : Member) (inside : x ∈ t.members) (outside : x.node ∉ first.map Member.node)
          (votes : x.role = .voter) : x ∈ (t.without (first.map Member.node)).voters := by
        simp only [Tablet.voters, Tablet.without, List.mem_filter, decide_eq_true_eq]
        exact ⟨⟨inside, outside⟩, votes⟩
      have two := kept m (mem_of_find?_eq_some own) fresh votes
      have survives : s.node ∉ first.map Member.node := by
        intro gone
        obtain ⟨x, there, same⟩ := mem_map.mp gone
        have held : x ∈ t.members.filter (·.node ≠ survivor) := by
          rw [whole]
          exact mem_append_left _ there
        have apart := (List.mem_filter.mp held).2
        rw [same, member.2] at apart
        simp at apart
      have one := kept s member.1 survives voter
      have apart : s ≠ m := fun same => other (same ▸ member.2)
      unfold Tablet.voterCount
      generalize (t.without (first.map Member.node)).voters = voters at one two
      rcases voters with _ | ⟨x, _ | ⟨y, voters⟩⟩
      · cases one
      · exact (apart ((mem_singleton.mp one).trans (mem_singleton.mp two).symm)).elim
      · simp
    · have few := lastTwo one first m last whole fresh votes
      omega

end

namespace Topology
variable {topology : Topology} {request : UnsafeRequest}

theorem addReplica_held {name : String} {t : Tablet} {m : Member} (held : topology.tablets.get? name = some t)
    (there : t.member m.node = some m) :
    topology.Accepted (.addReplica name m) ∧ topology.after (.addReplica name m) = topology := by
  have same : topology.applyInner (.addReplica name m) = (.ok false, topology) := by
    simp only [applyInner, onTablet, held, addMember, there, if_true]
  refine ⟨accepted_iff.mpr ⟨false, by rw [same]⟩, ?_⟩
  simp only [after, apply, same]
  rfl

theorem unsafeRecover_ok {survivorWatermark : Nat} {range : Int × Int} {moment : Int} {outcome : UnsafeOutcome}
    (taken : unsafeRecover topology request survivorWatermark range moment = .ok outcome) :
    ∃ t s, topology.tablets.get? request.tablet = some t ∧ t.member request.survivor = some s ∧
      outcome.mark = unsafeMark request survivorWatermark range moment ∧
      outcome.commands = (others t request.survivor).map (.removeReplica request.tablet) ++
        [.addReplica request.tablet s, .markDegraded request.tablet outcome.mark] := by
  unfold unsafeRecover at taken
  split at taken
  · cases taken
  · split at taken
    · cases taken
    · split at taken
      · cases taken
      · rename_i t held
        split at taken
        · cases taken
        · rename_i s there
          cases taken
          exact ⟨t, s, held, there, rfl, by simp [others]⟩

/-- The commands of an unsafe recovery do what it promises exactly where the survivor is listed one time, as a
voter, a tablet whose policy is for one voter loses its voters as the last two, and no other record of the
audit has the id of the mark. -/
theorem recovers_iff (commands : List ControllerCommand) (request : UnsafeRequest) (survivorWatermark : Nat)
    (range : Int × Int) (moment : Int) (outcome : UnsafeOutcome)
    (taken : unsafeRecover (new.run commands) request survivorWatermark range moment = .ok outcome) :
    (new.run commands).Recovers request outcome ↔ ∃ t s, (new.run commands).tablets.get? request.tablet = some t ∧
        t.members.filter (·.node = request.survivor) = [s] ∧ s.role = .voter ∧
        (t.receiptPolicy = .localOne → LastTwo t request.survivor) ∧
        (recoveryRecord request.tablet (unsafeMark request survivorWatermark range moment) ∈ (new.run commands).audit ∨
          ∀ record ∈ (new.run commands).audit,
            record.auditId ≠ (unsafeMark request survivorWatermark range moment).auditId) := by
  have recorded : Every (Recorded (new.run commands).audit) (new.run commands).tablets :=
    recorded_run (fun name t there => by cases there) commands
  generalize new.run commands = topology at taken recorded ⊢
  obtain ⟨t, s, held, there, mark, list⟩ := unsafeRecover_ok taken
  obtain ⟨legal, left⟩ := @removals_spec topology request.tablet t (others t request.survivor) held
  have own : s.node = request.survivor := by
    have same := List.find?_some there
    simpa using same
  -- what the removals leave, where they are all taken
  have rest (removed : Along Accepted topology ((others t request.survivor).map (.removeReplica request.tablet))) :
      Along Accepted topology outcome.commands ∧
        (topology.run outcome.commands).tablets.get? request.tablet =
          some { t.without (others t request.survivor) with degraded := some outcome.mark } ∧
        (recoveryRecord request.tablet outcome.mark ∈ (topology.run outcome.commands).audit ↔
          recoveryRecord request.tablet outcome.mark ∈ topology.audit ∨
            ∀ record ∈ topology.audit, record.auditId ≠ outcome.mark.auditId) := by
    obtain ⟨here, audit⟩ := left removed
    have stays : request.survivor ∉ others t request.survivor := by
      intro gone
      obtain ⟨m, kept, same⟩ := List.mem_map.mp gone
      have apart := (List.mem_filter.mp kept).2
      rw [same] at apart
      simp at apart
    obtain ⟨added, same⟩ := @addReplica_held _ request.tablet _ s here
      (by rw [own, member_without, if_neg stays, there])
    obtain ⟨marked, after, record⟩ := markDegraded_spec outcome.mark (recorded_run recorded _) here
    have last : topology.run outcome.commands = (topology.run ((others t request.survivor).map
        (.removeReplica request.tablet))).after (.markDegraded request.tablet outcome.mark) := by
      rw [list, run, List.foldl_append]
      exact congrArg (fun topology => Topology.after topology _) same
    rw [last]
    refine ⟨?_, after, by rw [record, audit]⟩
    rw [list]
    refine along_append.mpr ⟨removed, added, ?_⟩
    change Along Accepted ((topology.run ((others t request.survivor).map (.removeReplica request.tablet))).after
      (.addReplica request.tablet s)) _
    rw [same]
    exact ⟨marked, trivial⟩
  rw [← mark]
  constructor
  · rintro ⟨along, u, m, found, only, named, votes, -, written⟩
    rw [list] at along
    have removed := (along_append.mp along).1
    obtain ⟨-, after, record⟩ := rest removed
    rw [after] at found
    cases found
    dsimp only at only
    rw [without_others] at only
    exact ⟨t, m, held, only, votes, (leaves_iff_lastTwo only votes).mp (legal.mp removed), record.mp written⟩
  · rintro ⟨t', m, held', once, votes, lastTwo, free⟩
    obtain rfl := Option.some.inj (held.symm.trans held')
    obtain ⟨along, after, record⟩ := rest (legal.mpr ((leaves_iff_lastTwo once votes).mpr lastTwo))
    refine ⟨along, _, m, after, ?_, ?_, votes, rfl, record.mpr free⟩
    · dsimp only
      rw [without_others, once]
    · have inside : m ∈ t.members.filter (·.node = request.survivor) := by
        rw [once]
        exact List.mem_cons_self
      simpa using (List.mem_filter.mp inside).2

def threeVoters : List ControllerCommand :=
  [.createTablet "t" "cell" "home" 0 8 [Member.voter "n1" "a1", Member.voter "n2" "a2", Member.voter "n3" "a3"]
    .localQuorum]

def afterLoss (survivor : String) : UnsafeRequest := ⟨"t", "t", survivor, "disks lost"⟩

theorem recovers_iff_threeVoters : ∃ outcome,
    unsafeRecover (new.run threeVoters) (afterLoss "n2") 7 (0, 1000) 5000 = .ok outcome ∧
      (new.run threeVoters).Recovers (afterLoss "n2") outcome := by
  refine ⟨_, rfl, (recovers_iff threeVoters (afterLoss "n2") 7 (0, 1000) 5000 _ rfl).mpr ?_⟩
  exact ⟨_, _, rfl, rfl, rfl, fun one => (by cases one), .inr fun record inside => (by cases inside)⟩

def voterAndLearner : List ControllerCommand :=
  [.createTablet "t" "cell" "home" 0 8 [Member.voter "n1" "a1", Member.learner "n2" "a2"] .localQuorum]

theorem learner_does_not_recover : ¬ ∀ (commands : List ControllerCommand) (request : UnsafeRequest)
    (survivorWatermark : Nat) (range : Int × Int) (moment : Int) (outcome : UnsafeOutcome),
    unsafeRecover (new.run commands) request survivorWatermark range moment = .ok outcome →
      (new.run commands).Recovers request outcome := by
  intro all
  obtain ⟨⟨⟨generation, accepted⟩, -⟩, -⟩ := all voterAndLearner (afterLoss "n2") 7 (0, 1000) 5000 _ rfl
  have refused : ((new.run voterAndLearner).apply (.removeReplica "t" "n1")).1.toOption = none := by decide +kernel
  cases refused.symm.trans (congrArg Except.toOption accepted)

end Topology

end TallyOwl.Controller
