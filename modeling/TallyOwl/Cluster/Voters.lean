import TallyOwl.Cluster.Ownership

/-! How many voters a tablet has. Creation, removal and a change of policy look at the
count; adding a member and moving one do not. -/
open List TallyOwl.Lib.OrderedMap

namespace TallyOwl.Controller
open Lib

def votersOff (found : Tablet) (nodes : List String) : Nat :=
  (found.members.filter fun m => m.role = .voter ∧ m.node ∉ nodes).length

/-- A member may join the voters on other nodes: under `local-one` a voter joins none, and a
learner leaves at least one. -/
def Fits (found : Tablet) (nodes : List String) (member : Member) : Prop :=
  match member.role with
  | .voter => found.receiptPolicy = .localOne → votersOff found nodes = 0
  | .learner => votersOff found nodes ≠ 0

def Fitting (tablets : Tablets) : ControllerCommand → Prop
  | .addReplica name member => ∀ found, tablets.get? name = some found →
      found.member member.node ≠ some member → Fits found [member.node] member
  | .moveReplica name awayFrom onto => ∀ found, tablets.get? name = some found →
      found.member awayFrom ≠ none → Fits found [awayFrom, onto.node] onto
  | _ => True

def Proposed : ControllerCommand → Prop
  | .createTablet _ _ _ _ _ members _ =>
      (∃ m ∈ members, m.role = .voter) ∧ (members.map Member.node).Nodup
  | _ => True

/-- A tablet has a voter, and exactly one under `local-one`. -/
def Manned (t : Tablet) : Prop :=
  1 ≤ t.voterCount ∧ (t.receiptPolicy = .localOne → t.voterCount = 1)

def Distinct (t : Tablet) : Prop := (t.members.map Member.node).Nodup

section
variable {tablets : Tablets} {holds : Tablet → Prop} {name : String} {t : Tablet}

def Every (holds : Tablet → Prop) (tablets : Tablets) : Prop := ∀ name t, tablets.get? name = some t → holds t

theorem Every.insert (every : Every holds tablets) (own : holds t) : Every holds (tablets.insert name t) := by
  intro other u there
  rw [get?_insert] at there
  split at there
  · cases there
    exact own
  · exact every other u there

theorem Every.update (every : Every holds tablets) {found : Tablet} (there : tablets.get? name = some found)
    (own : holds found → holds t) : Every holds (tablets.insert name t) :=
  every.insert (own (every name found there))

theorem Every.erase (every : Every holds tablets) (name : String) : Every holds (tablets.erase name) := by
  intro other u there
  rw [get?_erase] at there
  split at there
  · cases there
  · exact every other u there

end

section
variable {found : Tablet}

theorem nodup_filter (distinct : Distinct found) (p : Member → Bool) :
    ((found.members.filter p).map Member.node).Nodup :=
  distinct.sublist (filter_sublist.map _)

variable {members : List Member}

theorem nodup_append (distinct : (members.map Member.node).Nodup) (member : Member)
    (other : ∀ m ∈ members, m.node ≠ member.node) : ((members ++ [member]).map Member.node).Nodup := by
  rw [map_append, List.nodup_append]
  refine ⟨distinct, by simp, ?_⟩
  intro a inside b last same
  obtain ⟨m, there, rfl⟩ := mem_map.mp inside
  have own : b = member.node := by simpa using last
  exact other m there (same.trans own)

theorem voterCount_put (found : Tablet) (nodes : List String) (member : Member)
    (left : members.filter (·.role = .voter) = found.members.filter fun m => m.role = .voter ∧ m.node ∉ nodes) :
    ((members ++ [member]).filter (·.role = .voter)).length =
      votersOff found nodes + if member.role = .voter then 1 else 0 := by
  rw [filter_append, length_append, left, votersOff]
  congr 1
  by_cases voter : member.role = .voter <;> simp [voter]

theorem votersOff_le (found : Tablet) (nodes : List String) : votersOff found nodes ≤ found.voterCount := by
  unfold votersOff Tablet.voterCount Tablet.voters
  have fewer : (found.members.filter fun m => m.role = .voter ∧ m.node ∉ nodes) =
      (found.members.filter (·.role = .voter)).filter fun m => m.node ∉ nodes := by
    rw [filter_filter]
    congr 1
    funext m
    simp [Bool.and_comm]
  rw [fewer]
  exact length_filter_le _ _

theorem manned_put (manned : Manned found) {nodes : List String} {member : Member}
    (left : members.filter (·.role = .voter) = found.members.filter fun m => m.role = .voter ∧ m.node ∉ nodes) :
    Manned { found with members := members ++ [member] } ↔ Fits found nodes member := by
  have count := voterCount_put found nodes member left
  have fewer := votersOff_le found nodes
  unfold Manned Fits Tablet.voterCount Tablet.voters
  dsimp only
  rw [count]
  cases role : member.role with
  | voter =>
    simp only [if_true]
    constructor
    · rintro ⟨-, exact⟩ one
      have := exact one
      omega
    · intro none
      refine ⟨by omega, fun one => ?_⟩
      have := none one
      omega
  | learner =>
    simp only [reduceCtorEq, if_false]
    constructor
    · rintro ⟨some, -⟩
      omega
    · intro some
      refine ⟨by omega, fun one => ?_⟩
      have := manned.2 one
      omega

theorem voterCount_remove (distinct : Distinct found) {node : String} {leaving : Member}
    (there : found.member node = some leaving) :
    ((found.members.filter (·.node ≠ node)).filter (·.role = .voter)).length +
      (if leaving.role = .voter then 1 else 0) = found.voterCount := by
  unfold Tablet.voterCount Tablet.voters
  unfold Distinct at distinct
  unfold Tablet.member at there
  generalize found.members = members at *
  induction members with
  | nil => cases there
  | cons m members ih =>
    rw [map_cons, nodup_cons] at distinct
    obtain ⟨alone, rest⟩ := distinct
    by_cases own : m.node = node
    · obtain rfl : m = leaving := by simpa [own] using there
      have same : members.filter (fun m => decide (m.node ≠ node)) = members := by
        refine filter_eq_self.mpr fun u inside => ?_
        have other : u.node ≠ node := by
          rintro rfl
          exact alone (mem_map.mpr ⟨u, inside, own.symm⟩)
        simpa using other
      rw [filter_cons_of_neg (by simp [own]), same]
      by_cases voter : m.role = .voter <;> simp [voter]
    · have later : members.find? (fun m => decide (m.node = node)) = some leaving := by
        simpa [find?_cons, own] using there
      have count := ih rest later
      rw [filter_cons_of_pos (by simpa using own)]
      by_cases voter : m.role = .voter
      · simp only [voter, filter_cons, decide_true, if_true, length_cons]
        omega
      · simp only [voter, filter_cons, decide_false, Bool.false_eq_true, if_false]
        exact count

end

section
variable {tablets : Tablets}

theorem filter_added (found : Tablet) (node : String) :
    (found.members.filter (·.node ≠ node)).filter (·.role = .voter) =
      found.members.filter fun m => m.role = .voter ∧ m.node ∉ [node] := by
  rw [filter_filter]
  congr 1
  funext m
  simp

theorem filter_moved (found : Tablet) (awayFrom onto : String) :
    ((found.members.filter (·.node ≠ awayFrom)).filter (·.node ≠ onto)).filter (·.role = .voter) =
      found.members.filter fun m => m.role = .voter ∧ m.node ∉ [awayFrom, onto] := by
  rw [filter_filter, filter_filter]
  congr 1
  funext m
  by_cases voter : m.role = .voter <;> by_cases away : m.node = awayFrom <;>
    by_cases on : m.node = onto <;> simp [voter, away, on]

variable {command : ControllerCommand}

theorem distinct_change {after : Tablets} (distinct : Every Distinct tablets)
    (proposed : Proposed command) (change : Change tablets command after) : Every Distinct after := by
  cases change with
  | same => exact distinct
  | created _ _ _ _ => exact distinct.insert proposed.2
  | reseated there how =>
    have own := distinct _ _ there
    refine distinct.insert ?_
    cases how with
    | added _ =>
      refine nodup_append (nodup_filter own _) _ fun m inside => ?_
      simpa using (List.mem_filter.mp inside).2
    | removed _ _ => exact nodup_filter own _
    | moved _ =>
      refine nodup_append ?_ _ fun m inside => ?_
      · exact (nodup_filter own _).sublist (filter_sublist.map _)
      · simpa using (List.mem_filter.mp inside).2
    | judged _ => exact own
  | restated there _ => exact distinct.update there fun own => own
  | failedOver there _ _ => exact distinct.update there fun own => own
  | split there _ _ _ =>
    have own := distinct _ _ there
    exact Every.insert (Every.insert distinct (by exact own)) (by exact own)
  | merged hereLeft _ _ _ =>
    refine Every.erase (distinct.update hereLeft fun own => ?_) _
    exact own
  | marked there _ => exact distinct.update there fun own => own
  | cleared there => exact distinct.update there fun own => own

theorem manned_change {after : Tablets} (distinct : Every Distinct tablets)
    (manned : Every Manned tablets) (proposed : Proposed command) (fitting : Fitting tablets command)
    (change : Change tablets command after) : Every Manned after := by
  cases change with
  | same => exact manned
  | created _ _ _ legal =>
    refine manned.insert ?_
    obtain ⟨⟨m, inside, voter⟩, -⟩ := proposed
    have some : 1 ≤ (List.filter (fun m : Member => decide (m.role = .voter)) _).length :=
      length_pos_iff.mpr (ne_nil_of_mem (List.mem_filter.mpr ⟨inside, by simpa using voter⟩))
    exact ⟨some, fun one => le_antisymm (legal one) some⟩
  | reseated there how =>
    have own := manned _ _ there
    refine manned.insert ?_
    cases how with
    | added fresh => exact (manned_put own (filter_added _ _)).mpr (fitting _ there fresh)
    | removed here left =>
      have count := voterCount_remove (distinct _ _ there) here
      obtain ⟨some, exact⟩ := own
      unfold Manned Tablet.voterCount Tablet.voters
      dsimp only
      split at count
      · rename_i voter
        have more := left voter
        refine ⟨by omega, fun one => ?_⟩
        have := exact one
        omega
      · refine ⟨by omega, fun one => ?_⟩
        have := exact one
        omega
    | moved here => exact (manned_put own (filter_moved _ _ _)).mpr (fitting _ there here)
    | judged legal => exact ⟨own.1, fun one => le_antisymm (legal one) own.1⟩
  | restated there _ => exact manned.update there fun own => own
  | failedOver there _ _ => exact manned.update there fun own => own
  | split there _ _ _ =>
    have own := manned _ _ there
    exact Every.insert (Every.insert manned (by exact own)) (by exact own)
  | merged hereLeft _ _ _ =>
    refine Every.erase (manned.update hereLeft fun own => ?_) _
    exact own
  | marked there _ => exact manned.update there fun own => own
  | cleared there => exact manned.update there fun own => own

theorem fitting_of_manned {topology : Topology}
    (manned : Every Manned topology.tablets) (after : Every Manned (topology.apply command).2.tablets) :
    Fitting topology.tablets command := by
  rw [tablets_apply] at after
  cases command with
  | addReplica name member =>
    intro found there fresh
    simp only [Topology.applyInner, Topology.onTablet, there, addMember, if_neg fresh] at after
    refine (manned_put (manned _ _ there) (filter_added found member.node)).mp (after name _ ?_)
    simp [get?_insert]
  | moveReplica name awayFrom onto =>
    intro found there here
    simp only [Topology.applyInner, Topology.onTablet, there, moveMember, if_neg here] at after
    refine (manned_put (manned _ _ there) (filter_moved found awayFrom onto.node)).mp (after name _ ?_)
    simp [get?_insert]
  | _ => trivial

end

namespace Topology

/-- Every tablet has a voter, and exactly one under `local-one`. -/
def EveryManned (topology : Topology) : Prop := Every Manned topology.tablets

/-- In a run from the empty topology whose creations name a voter and no node twice, every
tablet keeps a voter, and exactly one under `local-one`, throughout exactly where every
member that is added or moved in fits. -/
theorem tablets_stay_manned (commands : List ControllerCommand)
    (proposed : ∀ command ∈ commands, Proposed command) : Throughout EveryManned new commands ↔
      Along (fun topology command => Fitting topology.tablets command) new commands := by
  have empty : ∀ holds, Every holds new.tablets := by
    intro holds name t there
    cases there
  refine @throughout_iff_along _ _ _ _ _ _ _ (fun topology commands => Every Distinct topology.tablets ∧
    ∀ command ∈ commands, Proposed command) ?_ ?_ ⟨empty _, proposed⟩ (empty _)
  · rintro topology command commands ⟨distinct, fine⟩ manned
    exact ⟨fitting_of_manned manned, fun fits =>
      manned_change distinct manned (fine command List.mem_cons_self) fits (apply_change topology command)⟩
  · rintro topology command commands ⟨distinct, fine⟩ _ _
    exact ⟨distinct_change distinct (fine command List.mem_cons_self) (apply_change topology command),
      fun later inside => fine later (List.mem_cons_of_mem _ inside)⟩

theorem tablets_stay_manned_grown : Throughout EveryManned new [.createTablet "a" "cell" "home" 0 8
    [Member.voter "n1" "a1"] .localQuorum, .addReplica "a" (Member.voter "n2" "a2")] := by
  refine (tablets_stay_manned _ ?_).mpr ⟨trivial, ?_, trivial⟩
  · simp [Proposed, Member.voter]
  · intro found there _
    obtain rfl := Option.some.inj (there.symm.trans (show _ = some _ from rfl))
    simp [Fits, Member.voter]

/-- A second voter joins a tablet under `local-one`. -/
theorem local_one_tablet_gets_second_voter : (∀ command ∈ [ControllerCommand.createTablet "a" "cell" "home" 0 8
    [Member.voter "n1" "a1"] .localOne, .addReplica "a" (Member.voter "n2" "a2")], Proposed command) ∧
    ¬ Throughout EveryManned new [.createTablet "a" "cell" "home" 0 8 [Member.voter "n1" "a1"] .localOne,
      .addReplica "a" (Member.voter "n2" "a2")] := by
  refine ⟨by simp [Proposed, Member.voter], ?_⟩
  rintro ⟨-, -, manned⟩
  have one := (manned "a" ⟨"a", "cell", "home", 1, .active, 0, 8,
    [Member.voter "n1" "a1", Member.voter "n2" "a2"], .localOne, none⟩ (by decide)).2 rfl
  exact absurd one (by decide)

end Topology

end TallyOwl.Controller
