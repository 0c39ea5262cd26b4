import TallyOwl.Cluster.Ownership

/-! The epoch a shard is fenced by. A failover raises it and a split copies it, but a merge
puts the right tablet's shards under the epoch and the region of the left one. -/
open List TallyOwl.Lib.OrderedMap

namespace TallyOwl.Controller
open Lib

/-- A merge takes the shards of a tablet only to an epoch that is no older, and to another
region only to a newer one. -/
def MergesForward (tablets : Tablets) : ControllerCommand → Prop
  | .mergeTablets left right => ∀ l r, tablets.get? left = some l → tablets.get? right = some r →
      l.shardEnd = r.shardStart → l.members.map Member.node = r.members.map Member.node →
      l.state ≠ .retired → r.state ≠ .retired →
        r.epoch ≤ l.epoch ∧ (r.writeRegion ≠ l.writeRegion → r.epoch < l.epoch)
  | _ => True

/-- The epoch does not go back from one tablet to the next, and rises with a change of region. -/
def Follows (t u : Tablet) : Prop := t.epoch ≤ u.epoch ∧ (t.writeRegion ≠ u.writeRegion → t.epoch < u.epoch)

theorem Follows.of_eq {t u : Tablet} (epoch : u.epoch = t.epoch) (region : u.writeRegion = t.writeRegion) :
    Follows t u := ⟨le_of_eq epoch.symm, fun other => (other region.symm).elim⟩

section
variable {tablets after : Tablets} {shard : Nat} {a b : String} {t u : Tablet}

variable (apart : RangesApart tablets)
include apart

theorem name_unique (here : tablets.get? a = some t) (live : t.state ≠ .retired)
    (own : t.owns shard = true) (there : tablets.get? b = some u) (liveU : u.state ≠ .retired)
    (ownU : u.owns shard = true) : a = b := by
  by_contra different
  have far := apart a b t u different here there live liveU
  rw [owns_iff] at own ownU
  unfold Apart at far
  omega

theorem heir_insert {name : String} {put : Tablet}
    (apartAfter : RangesApart (tablets.insert name put)) (here : tablets.get? a = some t)
    (live : t.state ≠ .retired) (own : t.owns shard = true)
    (there : (tablets.insert name put).get? b = some u) (liveU : u.state ≠ .retired)
    (ownU : u.owns shard = true) : t = u ∨ (a = name ∧ u = put) := by
  by_cases mine : a = name
  · rw [get?_insert] at there
    split at there
    · exact .inr ⟨mine, (Option.some.inj there).symm⟩
    · have same := name_unique apart here live own there liveU ownU
      rw [same] at here
      exact .inl (Option.some.inj (here.symm.trans there))
  · have stays : (tablets.insert name put).get? a = some t := by
      rw [get?_insert, if_neg mine]
      exact here
    have same := name_unique apartAfter stays live own there liveU ownU
    rw [same] at stays
    exact .inl (Option.some.inj (stays.symm.trans there))

theorem follows_insert {name : String} {found put : Tablet}
    (apartAfter : RangesApart (tablets.insert name put)) (found_here : tablets.get? name = some found)
    (follows : Follows found put) (here : tablets.get? a = some t) (live : t.state ≠ .retired)
    (own : t.owns shard = true) (there : (tablets.insert name put).get? b = some u)
    (liveU : u.state ≠ .retired) (ownU : u.owns shard = true) : Follows t u := by
  rcases heir_insert apart apartAfter here live own there liveU ownU with rfl | ⟨rfl, rfl⟩
  · exact .of_eq rfl rfl
  · obtain rfl := Option.some.inj (found_here.symm.trans here)
    exact follows

theorem follows_split {name right : String} {atShard : Nat} {parent : Tablet}
    (apartAfter : RangesApart ((tablets.insert name { parent with shardEnd := atShard, state := .active }).insert
      right { parent with name := right, shardStart := atShard, state := .active }))
    (parent_here : tablets.get? name = some parent) (fresh : tablets.get? right = none)
    (here : tablets.get? a = some t) (live : t.state ≠ .retired) (own : t.owns shard = true)
    (there : ((tablets.insert name { parent with shardEnd := atShard, state := .active }).insert right
      { parent with name := right, shardStart := atShard, state := .active }).get? b = some u)
    (liveU : u.state ≠ .retired) (ownU : u.owns shard = true) : Follows t u := by
  have notRight : a ≠ right := by
    rintro rfl
    simp [here] at fresh
  by_cases mine : a = name
  · obtain rfl := mine
    obtain rfl := Option.some.inj (parent_here.symm.trans here)
    rw [get?_insert, get?_insert] at there
    split at there
    · cases there
      exact .of_eq rfl rfl
    · split at there
      · cases there
        exact .of_eq rfl rfl
      · rename_i other
        exact (other (name_unique apart here live own there liveU ownU).symm).elim
  · have stays : ((tablets.insert name { parent with shardEnd := atShard, state := .active }).insert right
        { parent with name := right, shardStart := atShard, state := .active }).get? a = some t := by
      rw [get?_insert, get?_insert, if_neg notRight, if_neg mine]
      exact here
    have same := name_unique apartAfter stays live own there liveU ownU
    rw [same] at stays
    obtain rfl := Option.some.inj (stays.symm.trans there)
    exact .of_eq rfl rfl

theorem follows_merge {left right : String} {l r : Tablet} {degraded : Option DegradedMark}
    (apartAfter : RangesApart ((tablets.insert left { l with shardEnd := r.shardEnd, degraded }).erase right))
    (hereLeft : tablets.get? left = some l) (hereRight : tablets.get? right = some r)
    (forward : l.state ≠ .retired → r.state ≠ .retired → Follows r l)
    (here : tablets.get? a = some t) (live : t.state ≠ .retired) (own : t.owns shard = true)
    (there : ((tablets.insert left { l with shardEnd := r.shardEnd, degraded }).erase right).get? b = some u)
    (liveU : u.state ≠ .retired) (ownU : u.owns shard = true) : Follows t u := by
  by_cases others : a = left ∨ a = right
  · rw [get?_erase, get?_insert] at there
    split at there
    · cases there
    · split at there
      · cases there
        rcases others with rfl | rfl
        · obtain rfl := Option.some.inj (hereLeft.symm.trans here)
          exact .of_eq rfl rfl
        · obtain rfl := Option.some.inj (hereRight.symm.trans here)
          exact forward liveU live
      · rename_i notRight notLeft
        have same := name_unique apart here live own there liveU ownU
        exact (others.elim (fun is => notLeft (same.symm.trans is)) fun is => notRight (same.symm.trans is)).elim
  · obtain ⟨notLeft, notRight⟩ := not_or.mp others
    have stays : ((tablets.insert left { l with shardEnd := r.shardEnd, degraded }).erase right).get? a =
        some t := by
      rw [get?_erase, get?_insert, if_neg notRight, if_neg notLeft]
      exact here
    have same := name_unique apartAfter stays live own there liveU ownU
    rw [same] at stays
    obtain rfl := Option.some.inj (stays.symm.trans there)
    exact .of_eq rfl rfl

theorem follows_change {command : ControllerCommand}
    (apartAfter : RangesApart after) (forward : MergesForward tablets command)
    (change : Change tablets command after) (here : tablets.get? a = some t) (live : t.state ≠ .retired)
    (own : t.owns shard = true) (there : after.get? b = some u) (liveU : u.state ≠ .retired)
    (ownU : u.owns shard = true) : Follows t u := by
  cases change with
  | same =>
    have same := name_unique apart here live own there liveU ownU
    rw [same] at here
    obtain rfl := Option.some.inj (here.symm.trans there)
    exact .of_eq rfl rfl
  | created _ fresh _ _ =>
    rcases heir_insert apart apartAfter here live own there liveU ownU with rfl | ⟨rfl, -⟩
    · exact .of_eq rfl rfl
    · rw [here] at fresh
      cases fresh
  | reseated found _ => exact follows_insert apart apartAfter found (.of_eq rfl rfl) here live own there liveU ownU
  | restated found _ => exact follows_insert apart apartAfter found (.of_eq rfl rfl) here live own there liveU ownU
  | failedOver found _ _ =>
    exact follows_insert apart apartAfter found ⟨Nat.le_succ _, fun _ => Nat.lt_succ_self _⟩ here live own
      there liveU ownU
  | split found fresh _ _ => exact follows_split apart apartAfter found fresh here live own there liveU ownU
  | merged hereLeft hereRight adjacent members =>
    exact follows_merge apart apartAfter hereLeft hereRight
      (forward _ _ hereLeft hereRight adjacent members) here live own there liveU ownU
  | marked found _ => exact follows_insert apart apartAfter found (.of_eq rfl rfl) here live own there liveU ownU
  | cleared found => exact follows_insert apart apartAfter found (.of_eq rfl rfl) here live own there liveU ownU

omit apart

end

namespace Topology

/-- Where a shard has an owner on both sides of a command, its epoch does not go back, and it
rises with a change of region. -/
def EpochsFollow (topology : Topology) (command : ControllerCommand) : Prop :=
  ∀ shard t u, topology.ownerOf shard = some t → (topology.apply command).2.ownerOf shard = some u →
    t.epoch ≤ u.epoch ∧ (t.writeRegion ≠ u.writeRegion → t.epoch < u.epoch)

theorem epochsFollow_iff {topology : Topology} {command : ControllerCommand}
    (formed : Formed topology.tablets) (apart : RangesApart topology.tablets) (clear : Clear topology.tablets command) :
    topology.EpochsFollow command ↔ MergesForward topology.tablets command := by
  have change := apply_change topology command
  have apartAfter := rangesApart_change formed apart change clear
  constructor
  · intro follow
    cases command with
    | mergeTablets left right =>
      intro l r hereLeft hereRight adjacent same liveL liveR
      have lowL := formed.ranged left l hereLeft
      have lowR := formed.ranged right r hereRight
      have other : left ≠ right := by
        rintro rfl
        obtain rfl := Option.some.inj (hereLeft.symm.trans hereRight)
        omega
      have before : topology.ownerOf r.shardStart = some r :=
        ownerOf_eq apart hereRight liveR (owns_iff.mpr ⟨le_refl _, lowR⟩)
      obtain ⟨joint, there, start, stop, state, epoch, region⟩ : ∃ joint : Tablet,
          (topology.apply (.mergeTablets left right)).2.tablets.get? left = some joint ∧
            joint.shardStart = l.shardStart ∧ joint.shardEnd = r.shardEnd ∧ joint.state = l.state ∧
            joint.epoch = l.epoch ∧ joint.writeRegion = l.writeRegion := by
        simp [tablets_apply, applyInner, mergeTablets, hereLeft, hereRight, adjacent, same,
          get?_erase, get?_insert, other]
      have behind := ownerOf_eq apartAfter there (state ▸ liveL)
        (owns_iff.mpr ⟨by omega, by omega⟩ : joint.owns r.shardStart = true)
      have follows := follow r.shardStart r joint before behind
      rw [epoch, region] at follows
      exact follows
    | _ => trivial
  · intro forward shard t u before behind
    obtain ⟨a, here, live, own⟩ := ownerOf_mem before
    obtain ⟨b, there, liveU, ownU⟩ := ownerOf_mem behind
    exact follows_change apart apartAfter forward change here live own there liveU ownU

/-- In a run that brings no retired range back over owned shards, the epoch of an owned shard
never goes back, and rises with a change of region, exactly where every merge is forward. -/
theorem epochs_never_go_back (commands : List ControllerCommand)
    (clear : Along (fun topology command => Clear topology.tablets command) new commands) :
    Along EpochsFollow new commands ↔
      Along (fun topology command => MergesForward topology.tablets command) new commands := by
  refine @along_congr _ _ _ _ _ _ _ (fun topology commands => Formed topology.tablets ∧ RangesApart topology.tablets ∧
    Along (fun topology command => Clear topology.tablets command) topology commands) ?_ ?_
    ⟨formed_new, rangesApart_new, clear⟩
  · rintro topology command commands ⟨formed, apart, clear, -⟩
    exact epochsFollow_iff formed apart clear
  · rintro topology command commands ⟨formed, apart, clear, rest⟩
    have change := apply_change topology command
    exact ⟨formed_change formed change, rangesApart_change formed apart change clear, rest⟩

/-- Two neighbours, of which the right one has failed over to another region. -/
def failedOverNeighbours : List ControllerCommand :=
  [.createTablet "a" "cell" "home" 0 8 [Member.voter "n1" "a1", { Member.voter "n2" "a2" with region := "away" }]
      .localQuorum,
    .splitTablet "a" 4 "b", .failOverRegion "b" "away"]

/-- A merge puts the shards of the tablet that failed over back under the first epoch and region. -/
theorem merge_takes_epoch_back : ¬ Along EpochsFollow new (failedOverNeighbours ++ [.mergeTablets "a" "b"]) := by
  rintro ⟨-, -, -, follow, -⟩
  have back := (follow 5 ⟨"b", "cell", "away", 2, .active, 4, 8,
      [Member.voter "n1" "a1", { Member.voter "n2" "a2" with region := "away" }], .localQuorum, none⟩
    ⟨"a", "cell", "home", 1, .active, 0, 8,
      [Member.voter "n1" "a1", { Member.voter "n2" "a2" with region := "away" }], .localQuorum, none⟩
    (by decide) (by decide)).1
  exact absurd back (by decide)

theorem epochs_never_go_back_failed_over : Along EpochsFollow new failedOverNeighbours := by
  refine (epochs_never_go_back failedOverNeighbours ⟨trivial, ?_, trivial, trivial⟩).mpr
    ⟨trivial, trivial, trivial, trivial⟩
  intro parent there gone
  obtain rfl := Option.some.inj (there.symm.trans (show _ = some _ from rfl))
  cases gone

end Topology

end TallyOwl.Controller
