import TallyOwl.Cluster.Routing

/-! The mark unsafe recovery leaves on a tablet. A tablet holds one mark: a second recovery
writes over it, a merge of two marked tablets keeps the left one's, and a tablet that takes
the shards of a retired one starts without any. -/
open List TallyOwl.Lib.OrderedMap

namespace TallyOwl.Controller
open Lib

def overlapsDegraded (mark : DegradedMark) (rangeStart rangeEnd : Int) : Bool :=
  rangeStart < mark.rangeEnd ∧ mark.rangeStart < rangeEnd

def DegradedMark.covers (mark : DegradedMark) (time : Int) : Bool := overlapsDegraded mark time (time + 1)

def covered (degraded : Option DegradedMark) (time : Int) : Bool := degraded.any (·.covers time)

def Warns (shard : Nat) (time : Int) (t : Tablet) : Prop :=
  t.state ≠ .retired → t.owns shard = true → covered t.degraded time = true

/-- The command gives the shard no owner whose mark misses the time. -/
def KeepsMark (shard : Nat) (time : Int) (topology : Topology) : ControllerCommand → Prop
  | .createTablet name _ _ shardStart shardEnd members policy => topology.tablets.get? name = none →
      topology.holder shardStart shardEnd = none →
      checkPolicy policy (members.filter (·.role = .voter)).length name = .ok () →
        ¬ (shardStart ≤ shard ∧ shard < shardEnd)
  | .setTabletState name state => ∀ found, topology.tablets.get? name = some found →
      Warns shard time { found with state }
  | .splitTablet name atShard right => ∀ parent, topology.tablets.get? name = some parent →
      topology.tablets.get? right = none → parent.shardStart < atShard → atShard < parent.shardEnd →
      parent.owns shard = true → covered parent.degraded time = true
  | .mergeTablets left right => ∀ l r, topology.tablets.get? left = some l →
      topology.tablets.get? right = some r → l.shardEnd = r.shardStart →
      l.members.map Member.node = r.members.map Member.node → l.state ≠ .retired → r.owns shard = true →
        covered (if l.degraded = none then r.degraded else l.degraded) time = true
  | .markDegraded name mark => ∀ found, topology.tablets.get? name = some found → found.state ≠ .retired →
      found.owns shard = true → mark.covers time = true
  | _ => True

/-- The command clears the mark of no tablet that owns the shard. -/
def Uncleared (shard : Nat) (topology : Topology) : ControllerCommand → Prop
  | .clearDegraded name _ _ _ => ∀ found, topology.tablets.get? name = some found → found.state ≠ .retired →
      found.owns shard = false
  | _ => True

section
variable {shard : Nat} {time : Int} {topology : Topology}

theorem warns_change {command : ControllerCommand} {after : Tablets}
    (warns : Every (Warns shard time) topology.tablets) (uncleared : Uncleared shard topology command)
    (keeps : KeepsMark shard time topology command) (change : Change topology.tablets command after) :
    Every (Warns shard time) after := by
  cases change with
  | same => exact warns
  | created low fresh free legal =>
    refine warns.insert fun _ own => ?_
    exact (keeps fresh (holder_eq_none free) (checkPolicy_legal legal) (owns_iff.mp own)).elim
  | reseated there _ => exact warns.update there fun own => own
  | restated there _ => exact warns.insert (keeps _ there)
  | failedOver there _ _ => exact warns.update there fun own => own
  | split there fresh low high =>
    have carries := keeps _ there fresh low high
    refine Every.insert (Every.insert warns fun _ own => carries ?_) fun _ own => carries ?_
    · rw [owns_iff] at own ⊢
      exact ⟨own.1, own.2.trans high⟩
    · rw [owns_iff] at own ⊢
      exact ⟨low.le.trans own.1, own.2⟩
  | merged hereLeft hereRight adjacent members =>
    rename_i left right l r
    refine Every.erase (warns.insert fun live own => ?_) _
    have carries := keeps l r hereLeft hereRight adjacent members live
    rw [owns_iff] at own
    dsimp only at own live ⊢
    by_cases low : shard < l.shardEnd
    · have marked := warns left l hereLeft live (owns_iff.mpr ⟨own.1, low⟩)
      have some : l.degraded ≠ none := by
        intro none
        simp [none, covered] at marked
      rw [if_neg some]
      exact marked
    · exact carries (owns_iff.mpr ⟨by omega, own.2⟩)
  | marked there _ =>
    refine warns.insert fun live own => ?_
    have covers := keeps _ there live own
    simpa [covered] using covers
  | cleared there =>
    rename_i found
    refine warns.insert fun live own => ?_
    have mine : found.owns shard = true := own
    rw [uncleared found there live] at mine
    cases mine

theorem keepsMark_of_warns {command : ControllerCommand} (formed : Formed topology.tablets)
    (warns : Every (Warns shard time) topology.tablets)
    (after : Every (Warns shard time) (topology.apply command).2.tablets) : KeepsMark shard time topology command := by
  rw [tablets_apply] at after
  cases command with
  | createTablet name cell region shardStart shardEnd members policy =>
    rintro fresh free legal ⟨low, high⟩
    have some : ¬ shardStart ≥ shardEnd := by omega
    simp only [Topology.applyInner, Topology.createTablet, if_neg some, fresh, free, legal, ne_eq,
      not_true_eq_false, if_false] at after
    have bare := after name _ (by simp [get?_insert]; rfl) (by simp) (owns_iff.mpr ⟨low, high⟩)
    cases bare
  | setTabletState name state =>
    intro found there
    by_cases same : found.state = state
    · obtain rfl := same
      have own := warns name found there
      exact own
    · simp only [Topology.applyInner, Topology.onTablet, there, setState, if_neg same] at after
      exact after name _ (by simp [get?_insert])
  | splitTablet name atShard right =>
    intro parent there fresh low high own
    have inside : ¬ (atShard ≤ parent.shardStart ∨ atShard ≥ parent.shardEnd) := by omega
    have other : name ≠ right := by
      rintro rfl
      simp [there] at fresh
    simp only [Topology.applyInner, Topology.splitTablet, fresh, there, if_neg inside, ne_eq,
      not_true_eq_false, if_false] at after
    rw [owns_iff] at own
    by_cases first : shard < atShard
    · have carries := after name { parent with shardEnd := atShard, state := .active }
        (by simp [get?_insert, other]) (by simp) (owns_iff.mpr ⟨own.1, first⟩)
      exact carries
    · have carries := after right { parent with name := right, shardStart := atShard, state := .active }
        (by simp [get?_insert]) (by simp) (owns_iff.mpr ⟨not_lt.mp first, own.2⟩)
      exact carries
  | mergeTablets left right =>
    intro l r hereLeft hereRight adjacent same live own
    have lowL := formed.ranged left l hereLeft
    have lowR := formed.ranged right r hereRight
    have other : left ≠ right := by
      rintro rfl
      obtain rfl := Option.some.inj (hereLeft.symm.trans hereRight)
      omega
    simp only [Topology.applyInner, Topology.mergeTablets, hereLeft, hereRight, adjacent, same, ne_eq,
      not_true_eq_false, if_false] at after
    rw [owns_iff] at own
    have carries := after left { l with
        shardEnd := r.shardEnd
        degraded := if l.degraded = none then r.degraded else l.degraded }
      (by simp [get?_erase, get?_insert, other]) live
      (owns_iff.mpr ⟨by dsimp only; omega, own.2⟩)
    exact carries
  | markDegraded name mark =>
    intro found there live own
    by_cases same : found.degraded = some mark
    · have carries := warns name found there live own
      simpa [same, covered] using carries
    · simp only [Topology.applyInner, Topology.markDegraded, there, if_neg same, tablets_withAudit] at after
      have carries := after name { found with degraded := some mark } (by simp [get?_insert]) live own
      simpa [covered] using carries
  | _ => trivial

end

namespace Topology

/-- Every tablet that owns the shard carries a mark that covers the time. -/
def Warned (shard : Nat) (time : Int) (topology : Topology) : Prop :=
  Every (Warns shard time) topology.tablets

/-- Where the one owner of a shard carries a mark that covers a time, every owner in a run
that clears no owner's mark carries one throughout exactly where every command keeps it. -/
theorem mark_never_disappears (commands later : List ControllerCommand) (shard : Nat) (time : Int)
    (single : (new.run commands).SingleOwner)
    (marked : ∃ name t, (new.run commands).tablets.get? name = some t ∧ t.state ≠ .retired ∧
      t.owns shard = true ∧ covered t.degraded time = true)
    (uncleared : Along (Uncleared shard) (new.run commands) later) :
    Throughout (Warned shard time) (new.run commands) later ↔
      Along (KeepsMark shard time) (new.run commands) later := by
  have formed := formed_run formed_new commands
  have first : (new.run commands).Warned shard time := by
    obtain ⟨name, t, there, live, own, carries⟩ := marked
    intro other u here liveU ownU
    have owner := single.2 shard name t there live own
    obtain rfl := Option.some.inj (owner.symm.trans (single.2 shard other u here liveU ownU))
    exact carries
  refine @throughout_iff_along _ _ _ _ _ _ _ (fun topology commands => Formed topology.tablets ∧
    Along (Uncleared shard) topology commands) ?_ ?_ ⟨formed, uncleared⟩ first
  · rintro topology command commands ⟨formed, kept, -⟩ warns
    exact ⟨keepsMark_of_warns formed warns, fun keeps =>
      warns_change warns kept keeps (apply_change topology command)⟩
  · rintro topology command commands ⟨formed, -, rest⟩ _ _
    exact ⟨formed_change formed (apply_change topology command), rest⟩

def lost (rangeStart rangeEnd : Int) (auditId : String) : DegradedMark :=
  ⟨0, rangeStart, rangeEnd, 7, "disks lost", auditId⟩

/-- Two neighbours, each marked by an unsafe recovery of its own. -/
def markedNeighbours : List ControllerCommand :=
  [plain "a" 0 8, .splitTablet "a" 4 "b", .markDegraded "a" (lost 100 200 "first"),
    .markDegraded "b" (lost 300 400 "second")]

theorem singleOwner_markedNeighbours : (new.run markedNeighbours).SingleOwner := by
  have formed := formed_run formed_new markedNeighbours
  refine (singleOwner_iff formed).mpr (rangesApart_run formed_new rangesApart_new ?_)
  refine ⟨trivial, ?_, trivial, trivial, trivial⟩
  intro parent there gone
  obtain rfl := Option.some.inj (there.symm.trans (show _ = some _ from rfl))
  cases gone

/-- A merge of two marked tablets forgets the mark of the right one. -/
theorem merge_forgets_mark : (new.run markedNeighbours).SingleOwner ∧
    (∃ name t, (new.run markedNeighbours).tablets.get? name = some t ∧ t.state ≠ .retired ∧
      t.owns 5 = true ∧ covered t.degraded 350 = true) ∧
    Along (Uncleared 5) (new.run markedNeighbours) [.mergeTablets "a" "b"] ∧
    ¬ Throughout (Warned 5 350) (new.run markedNeighbours) [.mergeTablets "a" "b"] := by
  refine ⟨singleOwner_markedNeighbours, ⟨"b", ⟨"b", "cell", "home", 1, .active, 4, 8, [Member.voter "n1" "a1"],
    .localQuorum, some (lost 300 400 "second")⟩, by decide, by decide, by decide, by decide⟩, ⟨trivial, trivial⟩, ?_⟩
  rintro ⟨-, warned⟩
  have carries := warned "a" ⟨"a", "cell", "home", 1, .active, 0, 8, [Member.voter "n1" "a1"], .localQuorum,
    some (lost 100 200 "first")⟩ (by decide) (by decide) (by decide)
  exact absurd carries (by decide)

theorem mark_never_disappears_split :
    Throughout (Warned 5 350) (new.run markedNeighbours) [.splitTablet "b" 6 "c"] := by
  refine (mark_never_disappears markedNeighbours [.splitTablet "b" 6 "c"] 5 350 singleOwner_markedNeighbours
    ⟨"b", ⟨"b", "cell", "home", 1, .active, 4, 8, [Member.voter "n1" "a1"], .localQuorum,
      some (lost 300 400 "second")⟩, by decide, by decide, by decide, by decide⟩ ⟨trivial, trivial⟩).mpr ⟨?_, trivial⟩
  intro parent there _ _ _ _
  obtain rfl := Option.some.inj (there.symm.trans (show _ = some _ from rfl))
  decide

end Topology

end TallyOwl.Controller
