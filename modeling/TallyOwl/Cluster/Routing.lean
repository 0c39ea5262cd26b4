import TallyOwl.Cluster.Replay
import TallyOwl.Cluster.Voters

/-! Where a write belongs, and what a leader says to a write whose route is old (`routing.rs`).
The fence looks at a tablet's epoch, its region and whether it takes writes. It never looks
at the range, which a split or a tablet made anew under an old name can change. -/
open List TallyOwl.Lib.OrderedMap

namespace TallyOwl.Controller
open Lib

def shardOf (projectId affinityKey : Bytes) : Nat :=
  let hash := (projectId ++ affinityKey).foldl
    (fun (hash : UInt64) byte => (hash ^^^ byte.toUInt64) * 0x00000100000001b3) 0xcbf29ce484222325
  hash.toNat % virtualShards

structure Route where
  cell : String
  shard : Nat
  tablet : String
  leader : Option String
  leaderAddress : Option String
  generation : Nat
  epoch : Nat
  receiptPolicy : ReceiptPolicy
  writeRegion : String
  deriving DecidableEq

inductive RouteError where
  | noOwner (message : String)
  | notWritable (message : String)
  deriving DecidableEq

inductive Fence where
  | current
  | redirect (currentGeneration : Nat) (reason : String)
  | fenced (currentEpoch : Nat) (writeRegion reason : String)
  deriving DecidableEq

namespace Topology
variable (topology : Topology)

def routeWrite (projectId affinityKey : Bytes) (leaderOf : String → Option String) : Except RouteError Route :=
  let shard := shardOf projectId affinityKey
  match topology.ownerOf shard with
  | none =>
      .error (.noOwner s!"No tablet owns virtual shard {shard} yet. The cell has no placement for it.")
  | some tablet =>
      if tablet.writable = false then
        .error (.notWritable
          s!"`{tablet.name}` owns virtual shard {shard} and is not accepting writes right now.")
      else
        let leader := leaderOf tablet.name
        let leaderAddress := (leader.bind tablet.member).map Member.address
        .ok ⟨tablet.cell, shard, tablet.name, leader, leaderAddress, topology.generation, tablet.epoch,
          tablet.receiptPolicy, tablet.writeRegion⟩

def checkFence (tablet : String) (carriedGeneration carriedEpoch : Nat) (writerRegion : Option String) :
    Fence :=
  match topology.tablets.get? tablet with
  | none => .redirect topology.generation s!"`{tablet}` is not a tablet this controller knows."
  | some found =>
      if carriedEpoch < found.epoch then
        .fenced found.epoch found.writeRegion (s!"`{tablet}` moved its write region to `{found.writeRegion}` " ++
          s!"at epoch {found.epoch}. A write from epoch {carriedEpoch} is refused rather than accepted " ++
          "beside the new region.")
      else
        match writerRegion with
        | some region =>
            if region ≠ found.writeRegion then
              .fenced found.epoch found.writeRegion
                s!"`{tablet}` accepts writes in `{found.writeRegion}` and this write came from `{region}`."
            else passed found
        | none => passed found
where
  /-- A generation behind is a redirect only where this tablet stopped taking writes. -/
  passed (found : Tablet) : Fence :=
    if carriedGeneration < topology.generation ∧ carriedGeneration ≠ 0 ∧ found.writable = false then
      .redirect topology.generation s!"`{tablet}` no longer accepts writes."
    else .current

/-- A write that the fence lets through reaches the owner of its shard, which takes it. -/
def ReachesOwner (route : Route) (topology : Topology) : Prop :=
  topology.checkFence route.tablet route.generation route.epoch (some route.writeRegion) = .current →
    ∃ owner, topology.ownerOf route.shard = some owner ∧ owner.name = route.tablet ∧ owner.writable

end Topology

/-- The fence lets the route through to a tablet that does not own its shard. -/
def Strays (route : Route) (t : Tablet) : Prop :=
  t.epoch ≤ route.epoch ∧ t.writeRegion = route.writeRegion ∧ t.writable ∧ t.owns route.shard = false

def Straight (route : Route) (tablets : Tablets) : Prop :=
  ∀ t, tablets.get? route.tablet = some t → ¬ Strays route t

/-- The command leaves no tablet under the route's name that takes its writes without owning
its shard. -/
def Keeps (route : Route) (topology : Topology) : ControllerCommand → Prop
  | .createTablet name _ region shardStart shardEnd members policy => name = route.tablet →
      region = route.writeRegion → topology.tablets.get? name = none → shardStart < shardEnd →
      topology.holder shardStart shardEnd = none →
      checkPolicy policy (members.filter (·.role = .voter)).length name = .ok () →
        shardStart ≤ route.shard ∧ route.shard < shardEnd
  | .setTabletState name state => name = route.tablet → ∀ found, topology.tablets.get? name = some found →
      ¬ Strays route { found with state }
  | .failOverRegion name ontoRegion => name = route.tablet → ∀ found,
      topology.tablets.get? name = some found → found.writeRegion ≠ ontoRegion →
      found.members.any (·.region = ontoRegion) →
        ¬ Strays route { found with writeRegion := ontoRegion, epoch := found.epoch + 1 }
  | .splitTablet name atShard right => ∀ parent, topology.tablets.get? name = some parent →
      topology.tablets.get? right = none → parent.shardStart < atShard → atShard < parent.shardEnd →
      parent.epoch ≤ route.epoch → parent.writeRegion = route.writeRegion →
        (name = route.tablet → parent.shardStart ≤ route.shard ∧ route.shard < atShard) ∧
        (right = route.tablet → atShard ≤ route.shard ∧ route.shard < parent.shardEnd)
  | _ => True

section
variable {route : Route} {topology : Topology}

theorem checkFence_current (real : route.generation ≠ 0) (later : route.generation < topology.generation) :
    topology.checkFence route.tablet route.generation route.epoch (some route.writeRegion) = .current ↔
      ∃ t, topology.tablets.get? route.tablet = some t ∧ t.epoch ≤ route.epoch ∧
        t.writeRegion = route.writeRegion ∧ t.writable := by
  unfold Topology.checkFence
  cases there : topology.tablets.get? route.tablet with
  | none => simp
  | some found =>
    simp only [Option.some.injEq, exists_eq_left']
    by_cases old : route.epoch < found.epoch
    · rw [if_pos old]
      refine iff_of_false (by simp) fun through => ?_
      omega
    · rw [if_neg old]
      by_cases home : route.writeRegion = found.writeRegion
      · rw [if_neg (not_not.mpr home), Topology.checkFence.passed]
        cases takes : found.writable with
        | true => simp [home]; omega
        | false => simp [later, real]
      · rw [if_pos home]
        refine iff_of_false (by simp) fun through => home through.2.1.symm

theorem reachesOwner_iff (formed : Formed topology.tablets) (apart : RangesApart topology.tablets)
    (real : route.generation ≠ 0) (later : route.generation < topology.generation) :
    topology.ReachesOwner route ↔ Straight route topology.tablets := by
  unfold Topology.ReachesOwner
  rw [checkFence_current real later]
  constructor
  · rintro reaches t there ⟨age, home, takes, off⟩
    obtain ⟨owner, found, named, -⟩ := reaches ⟨t, there, age, home, takes⟩
    obtain ⟨name, here, -, own⟩ := ownerOf_mem found
    have same : name = route.tablet := (formed.named name owner here).symm.trans named
    rw [same] at here
    obtain rfl := Option.some.inj (there.symm.trans here)
    rw [off] at own
    cases own
  · rintro straight ⟨t, there, age, home, takes⟩
    have own : t.owns route.shard = true := by
      by_contra off
      exact straight t there ⟨age, home, takes, by simpa using off⟩
    have live : t.state ≠ .retired := by
      intro gone
      simp [Tablet.writable, gone] at takes
    exact ⟨t, ownerOf_eq apart there live own, formed.named _ t there, takes⟩

end

section
variable {route : Route} {topology : Topology} {tablets : Tablets}

variable {name : String}

theorem straight_insert {t : Tablet} (straight : Straight route tablets) :
    Straight route (tablets.insert name t) ↔ (name = route.tablet → ¬ Strays route t) := by
  constructor
  · rintro after rfl
    exact after t (by simp [get?_insert])
  · intro own u there
    rw [get?_insert] at there
    split at there
    · rename_i same
      cases there
      exact own same.symm
    · exact straight u there

theorem straight_erase (straight : Straight route tablets) : Straight route (tablets.erase name) := by
  intro u there
  rw [get?_erase] at there
  split at there
  · cases there
  · exact straight u there

theorem straight_update {found t : Tablet} (straight : Straight route tablets)
    (there : tablets.get? name = some found) (epoch : t.epoch = found.epoch)
    (region : t.writeRegion = found.writeRegion) (state : t.state = found.state)
    (wider : found.owns route.shard = true → t.owns route.shard = true) : Straight route (tablets.insert name t) := by
  refine (straight_insert straight).mpr ?_
  rintro rfl ⟨age, home, takes, off⟩
  refine straight found there ⟨epoch ▸ age, region ▸ home, ?_, ?_⟩
  · unfold Tablet.writable at takes ⊢
    rw [← state]
    exact takes
  · by_contra own
    rw [wider (by simpa using own)] at off
    cases off

theorem not_strays_iff {t : Tablet} (age : t.epoch ≤ route.epoch) (home : t.writeRegion = route.writeRegion)
    (takes : t.writable = true) : ¬ Strays route t ↔ t.shardStart ≤ route.shard ∧ route.shard < t.shardEnd := by
  rw [← owns_iff]
  constructor
  · intro straight
    by_contra off
    exact straight ⟨age, home, takes, by simpa using off⟩
  · rintro own ⟨-, -, -, off⟩
    rw [own] at off
    cases off

theorem holder_eq_none {shardStart shardEnd : Nat} (free : ∀ other t, topology.tablets.get? other = some t →
    t.state ≠ .retired → shardEnd ≤ t.shardStart ∨ t.shardEnd ≤ shardStart) :
    topology.holder shardStart shardEnd = none := by
  refine find?_eq_none.mpr fun t inside => ?_
  obtain ⟨other, there⟩ := mem_values_iff.mp inside
  simp only [decide_eq_true_eq]
  rintro ⟨live, low, high⟩
  have apart := free other t there live
  omega

theorem checkPolicy_legal {policy : ReceiptPolicy} {voters : Nat}
    (legal : policy = .localOne → voters ≤ 1) : checkPolicy policy voters name = .ok () := by
  unfold checkPolicy
  rw [if_neg]
  rintro ⟨one, many⟩
  have few := legal one
  omega

variable {command : ControllerCommand}

theorem straight_change {after : Tablets} (formed : Formed topology.tablets)
    (straight : Straight route topology.tablets) (keeps : Keeps route topology command)
    (change : Change topology.tablets command after) : Straight route after := by
  cases change with
  | same => exact straight
  | created low fresh free legal =>
    refine (straight_insert straight).mpr ?_
    rintro named ⟨age, home, takes, off⟩
    have covers := keeps named home fresh low (holder_eq_none free) (checkPolicy_legal legal)
    rw [owns_iff.mpr covers] at off
    cases off
  | reseated there _ => exact straight_update straight there rfl rfl rfl fun own => own
  | restated there _ => exact (straight_insert straight).mpr fun named => keeps named _ there
  | failedOver there other replica =>
    exact (straight_insert straight).mpr fun named => keeps named _ there other replica
  | split there fresh low high =>
    have sides := keeps _ there fresh low high
    refine (straight_insert ((straight_insert straight).mpr ?_)).mpr ?_
    · intro named strays
      exact (not_strays_iff strays.1 strays.2.1 rfl).mpr ((sides strays.1 strays.2.1).1 named) strays
    · intro named strays
      exact (not_strays_iff strays.1 strays.2.1 rfl).mpr ((sides strays.1 strays.2.1).2 named) strays
  | merged hereLeft hereRight adjacent _ =>
    have right := formed.ranged _ _ hereRight
    refine straight_erase (straight_update straight hereLeft rfl rfl rfl fun own => ?_)
    rw [owns_iff] at own ⊢
    dsimp only
    omega
  | marked there _ => exact straight_update straight there rfl rfl rfl fun own => own
  | cleared there => exact straight_update straight there rfl rfl rfl fun own => own

theorem keeps_of_straight (straight : Straight route topology.tablets)
    (first : 1 ≤ route.epoch) (after : Straight route (topology.apply command).2.tablets) :
    Keeps route topology command := by
  rw [tablets_apply] at after
  cases command with
  | createTablet name cell region shardStart shardEnd members policy =>
    intro named home fresh low free legal
    simp only [Topology.applyInner, Topology.createTablet, if_neg (not_le.mpr low), fresh, free, legal,
      ne_eq, not_true_eq_false, if_false] at after
    have own := (straight_insert straight).mp after named
    exact (not_strays_iff first home rfl).mp own
  | setTabletState name state =>
    intro named found there
    by_cases same : found.state = state
    · obtain rfl := same
      rw [named] at there
      have own := straight found there
      exact own
    · simp only [Topology.applyInner, Topology.onTablet, there, setState, if_neg same] at after
      have own := (straight_insert straight).mp after named
      exact own
  | failOverRegion name ontoRegion =>
    intro named found there other replica
    simp only [Topology.applyInner, Topology.onTablet, there, failOver, if_neg other, replica, if_true] at after
    have own := (straight_insert straight).mp after named
    exact own
  | splitTablet name atShard right =>
    intro parent there fresh low high age home
    have inside : ¬ (atShard ≤ parent.shardStart ∨ atShard ≥ parent.shardEnd) := by omega
    simp only [Topology.applyInner, Topology.splitTablet, fresh, there, if_neg inside, ne_eq,
      not_true_eq_false, if_false] at after
    have apart : name ≠ right := by
      rintro rfl
      simp [there] at fresh
    constructor
    · intro named
      have own := after { parent with shardEnd := atShard, state := .active }
        (by simp [get?_insert, ← named, apart])
      exact (not_strays_iff (by exact age) (by exact home) rfl).mp own
    · intro named
      have own := after { parent with name := right, shardStart := atShard, state := .active }
        (by simp [get?_insert, ← named])
      exact (not_strays_iff (by exact age) (by exact home) rfl).mp own
  | _ => trivial

theorem epochs_change {after : Tablets}
    (epochs : Every (fun t => 1 ≤ t.epoch) tablets) (change : Change tablets command after) :
    Every (fun t => 1 ≤ t.epoch) after := by
  cases change with
  | same => exact epochs
  | created _ _ _ _ => exact epochs.insert (le_refl 1)
  | reseated there _ => exact epochs.update there fun own => own
  | restated there _ => exact epochs.update there fun own => own
  | failedOver there _ _ => exact epochs.update there fun own => Nat.le_succ_of_le own
  | split there _ _ _ =>
    have own := epochs _ _ there
    exact Every.insert (Every.insert epochs (by exact own)) (by exact own)
  | merged hereLeft _ _ _ =>
    refine Every.erase (epochs.update hereLeft fun own => ?_) _
    exact own
  | marked there _ => exact epochs.update there fun own => own
  | cleared there => exact epochs.update there fun own => own

end

namespace Topology

variable {topology : Topology}

theorem epochs_run (epochs : Every (fun t => 1 ≤ t.epoch) topology.tablets) (commands : List ControllerCommand) :
    Every (fun t => 1 ≤ t.epoch) (topology.run commands).tablets := by
  induction commands generalizing topology with
  | nil => exact epochs
  | cons command commands ih => exact ih (epochs_change epochs (apply_change topology command))

theorem apply_same_or_raised (topology : Topology) (command : ControllerCommand) :
    (topology.apply command).2 = topology ∨ (topology.apply command).2.generation = topology.generation + 1 := by
  rw [apply_state]
  exact (honest command).step (fun _ => rfl) topology

theorem run_same_or_raised (topology : Topology) (commands : List ControllerCommand) :
    topology.run commands = topology ∨ topology.generation < (topology.run commands).generation := by
  induction commands generalizing topology with
  | nil => exact .inl rfl
  | cons command commands ih =>
    have rest := ih (topology.apply command).2
    rcases apply_same_or_raised topology command with same | raised
    · rw [same] at rest
      simpa only [run, foldl_cons, same] using rest
    · right
      rcases rest with still | more
      · show _ < ((topology.apply command).2.run commands).generation
        rw [still]
        omega
      · show _ < ((topology.apply command).2.run commands).generation
        omega

theorem reachesOwner_apply {route : Route} {command : ControllerCommand}
    (formed : Formed topology.tablets) (apart : RangesApart topology.tablets) (real : route.generation ≠ 0)
    (aged : route.generation ≤ topology.generation) (straight : Straight route topology.tablets)
    (reaches : topology.ReachesOwner route) (clear : Clear topology.tablets command) :
    (topology.apply command).2.ReachesOwner route ↔ Straight route (topology.apply command).2.tablets := by
  rcases apply_same_or_raised topology command with same | raised
  · rw [same]
    exact iff_of_true reaches straight
  · have change := apply_change topology command
    exact reachesOwner_iff (formed_change formed change) (rangesApart_change formed apart change clear) real
      (by omega)

theorem routeWrite_ok {projectId affinityKey : Bytes} {leaderOf : String → Option String} {route : Route}
    (routed : topology.routeWrite projectId affinityKey leaderOf = .ok route) :
    ∃ owner, topology.ownerOf route.shard = some owner ∧ owner.writable ∧ owner.name = route.tablet ∧
      owner.epoch = route.epoch ∧ topology.generation = route.generation := by
  unfold routeWrite at routed
  dsimp only at routed
  split at routed
  · cases routed
  · rename_i owner found
    split at routed
    · cases routed
    · rename_i takes
      cases routed
      exact ⟨owner, found, by simpa using takes, rfl, rfl, rfl⟩

/-- In a run that brings no retired range back over owned shards, a write that the fence lets
through reaches the owner of its shard throughout exactly where every command since keeps its
route. -/
theorem fenced_write_reaches_owner (commands later : List ControllerCommand)
    (projectId affinityKey : Bytes) (leaderOf : String → Option String) (route : Route)
    (clear : Along (fun topology command => Clear topology.tablets command) new (commands ++ later))
    (routed : (new.run commands).routeWrite projectId affinityKey leaderOf = .ok route) :
    Throughout (ReachesOwner route) (new.run commands) later ↔ Along (Keeps route) (new.run commands) later := by
  obtain ⟨before, after⟩ := along_append.mp clear
  obtain ⟨owner, found, takes, named, age, when⟩ := routeWrite_ok routed
  have formed := formed_run formed_new commands
  have apart := rangesApart_run formed_new rangesApart_new before
  obtain ⟨name, there, live, own⟩ := ownerOf_mem found
  have same : name = route.tablet := (formed.named name owner there).symm.trans named
  rw [same] at there
  have first : 1 ≤ route.epoch := by
    rw [← age]
    refine epochs_run ?_ commands route.tablet owner there
    intro name t there
    cases there
  have real : route.generation ≠ 0 := by
    rw [← when]
    rcases run_same_or_raised new commands with empty | more
    · rw [empty] at there
      cases there
    · exact Nat.ne_of_gt (Nat.lt_of_le_of_lt (Nat.zero_le _) more)
  have straight : Straight route (new.run commands).tablets := by
    rintro t here ⟨-, -, -, off⟩
    obtain rfl := Option.some.inj (there.symm.trans here)
    rw [own] at off
    cases off
  have reaches : (new.run commands).ReachesOwner route := fun _ => ⟨owner, found, named, takes⟩
  refine @throughout_iff_along _ _ _ _ _ _ _ (fun topology commands => Formed topology.tablets ∧
    RangesApart topology.tablets ∧ route.generation ≤ topology.generation ∧ Straight route topology.tablets ∧
    Along (fun topology command => Clear topology.tablets command) topology commands) ?_ ?_
    ⟨formed, apart, le_of_eq when.symm, straight, after⟩ reaches
  · rintro topology command commands ⟨formed, apart, aged, straight, clear, -⟩ reaches
    refine (reachesOwner_apply formed apart real aged straight reaches clear).trans ?_
    exact ⟨keeps_of_straight straight first, fun keeps =>
      straight_change formed straight keeps (apply_change topology command)⟩
  · rintro topology command commands ⟨formed, apart, aged, straight, clear, rest⟩ reaches next
    have change := apply_change topology command
    refine ⟨formed_change formed change, rangesApart_change formed apart change clear, ?_,
      (reachesOwner_apply formed apart real aged straight reaches clear).mp next, rest⟩
    rcases apply_same_or_raised topology command with same | raised
    · exact le_of_le_of_eq aged (congrArg Topology.generation same.symm)
    · exact aged.trans (raised ▸ Nat.le_succ _)

/-- The route of an empty project and key, over one tablet of every shard. -/
def wholeRoute : Route :=
  ⟨"cell", 805, "a", none, none, 1, 1, .localQuorum, "home"⟩

/-- A tablet split past the shard keeps taking its writes. -/
theorem split_tablet_takes_strays : (new.run [plain "a" 0 4096]).routeWrite [] [] (fun _ => none) = .ok wholeRoute ∧
      ¬ Throughout (ReachesOwner wholeRoute) (new.run [plain "a" 0 4096]) [.splitTablet "a" 100 "b"] := by
  refine ⟨by decide, ?_⟩
  rintro ⟨-, reaches⟩
  obtain ⟨owner, found, named, -⟩ := reaches (by decide)
  have child : owner = ⟨"b", "cell", "home", 1, .active, 100, 4096, [Member.voter "n1" "a1"], .localQuorum, none⟩ :=
    Option.some.inj (found.symm.trans (by decide))
  rw [child] at named
  exact absurd named (by decide)

theorem fenced_write_reaches_owner_split_above :
    Throughout (ReachesOwner wholeRoute) (new.run [plain "a" 0 4096]) [.splitTablet "a" 1000 "b"] := by
  refine (fenced_write_reaches_owner [plain "a" 0 4096] [.splitTablet "a" 1000 "b"] [] [] (fun _ => none)
    wholeRoute ⟨trivial, ?_, trivial⟩ (by decide)).mpr ⟨?_, trivial⟩
  · intro parent there gone
    obtain rfl := Option.some.inj (there.symm.trans (show _ = some _ from rfl))
    cases gone
  · intro parent there _ _ _ _ _
    obtain rfl := Option.some.inj (there.symm.trans (show _ = some _ from rfl))
    exact ⟨fun _ => by decide, fun same => absurd same (by decide)⟩

end Topology

end TallyOwl.Controller
