import TallyOwl.Lib.Runs
import TallyOwl.Cluster.Topology

/-! Which tablet owns a shard. Ranges stay apart except where a command brings a retired
range back: a state change, a split or a merge of a retired tablet takes its shards again
without looking at who has them now. -/
open List TallyOwl.Lib.OrderedMap

namespace TallyOwl.Controller
open Lib

def Apart (s t : Tablet) : Prop := s.shardEnd ≤ t.shardStart ∨ t.shardEnd ≤ s.shardStart

/-- A tablet stands under its name and owns at least one shard. -/
structure Formed (tablets : Tablets) : Prop where
  named : ∀ name t, tablets.get? name = some t → t.name = name
  ranged : ∀ name t, tablets.get? name = some t → t.shardStart < t.shardEnd

def RangesApart (tablets : Tablets) : Prop :=
  ∀ a b s t, a ≠ b → tablets.get? a = some s → tablets.get? b = some t → s.state ≠ .retired →
    t.state ≠ .retired → Apart s t

def Unowned (tablets : Tablets) (name : String) (range : Tablet) : Prop :=
  ∀ other t, other ≠ name → tablets.get? other = some t → t.state ≠ .retired → Apart range t

/-- The command brings no retired range back over shards that somebody owns. -/
def Clear (tablets : Tablets) : ControllerCommand → Prop
  | .setTabletState name state => ∀ found, tablets.get? name = some found → found.state = .retired →
      state ≠ .retired → Unowned tablets name found
  | .splitTablet name atShard right => ∀ parent, tablets.get? name = some parent →
      parent.state = .retired → tablets.get? right = none → parent.shardStart < atShard →
        atShard < parent.shardEnd → Unowned tablets name parent
  | .mergeTablets left right => ∀ l r, tablets.get? left = some l → tablets.get? right = some r →
      l.shardEnd = r.shardStart → l.members.map Member.node = r.members.map Member.node →
        l.state ≠ .retired → r.state = .retired → Unowned tablets right r
  | _ => True

section
variable {tablets : Tablets} {name : String} {t : Tablet}

theorem Formed.insert (formed : Formed tablets) (named : t.name = name)
    (ranged : t.shardStart < t.shardEnd) : Formed (tablets.insert name t) := by
  constructor
  · intro other u there
    rw [get?_insert] at there
    split at there
    · rename_i same
      cases there
      rw [same, named]
    · exact formed.named other u there
  · intro other u there
    rw [get?_insert] at there
    split at there
    · cases there
      exact ranged
    · exact formed.ranged other u there

theorem Formed.update (formed : Formed tablets) {found : Tablet} (there : tablets.get? name = some found)
    (named : t.name = found.name) (start : t.shardStart = found.shardStart)
    (stop : t.shardEnd = found.shardEnd) : Formed (tablets.insert name t) := by
  refine formed.insert (named.trans (formed.named name found there)) ?_
  rw [start, stop]
  exact formed.ranged name found there

theorem Formed.erase (formed : Formed tablets) (name : String) : Formed (tablets.erase name) := by
  constructor
  · intro other u there
    rw [get?_erase] at there
    split at there
    · cases there
    · exact formed.named other u there
  · intro other u there
    rw [get?_erase] at there
    split at there
    · cases there
    · exact formed.ranged other u there

theorem formed_change {command : ControllerCommand} {after : Tablets} (formed : Formed tablets)
    (change : Change tablets command after) : Formed after := by
  cases change with
  | same => exact formed
  | created low _ _ _ => exact formed.insert rfl low
  | reseated there how => exact formed.update there rfl rfl rfl
  | restated there _ => exact formed.update there rfl rfl rfl
  | failedOver there _ _ => exact formed.update there rfl rfl rfl
  | split there fresh low high =>
    have named := formed.named _ _ there
    exact Formed.insert (Formed.insert formed (by exact named) low) rfl high
  | merged hereLeft hereRight adjacent _ =>
    have left := formed.ranged _ _ hereLeft
    have right := formed.ranged _ _ hereRight
    have named := formed.named _ _ hereLeft
    refine Formed.erase (Formed.insert formed (by exact named) ?_) _
    dsimp only
    omega
  | marked there _ => exact formed.update there rfl rfl rfl
  | cleared there => exact formed.update there rfl rfl rfl

theorem Apart.symm {s t : Tablet} (apart : Apart s t) : Apart t s := Or.symm apart

theorem rangesApart_insert (apart : RangesApart tablets) :
    RangesApart (tablets.insert name t) ↔ (t.state ≠ .retired → Unowned tablets name t) := by
  constructor
  · intro after live other u different there liveU
    refine after name other t u different.symm ?_ ?_ live liveU
    · simp [get?_insert]
    · simp [get?_insert, different, there]
  · intro free a b s u different hereA hereB liveS liveU
    rw [get?_insert] at hereA hereB
    split at hereA
    · rename_i isName
      cases hereA
      rw [if_neg (by rw [← isName]; exact different.symm)] at hereB
      exact free liveS b u (by rw [← isName]; exact different.symm) hereB liveU
    · rename_i notA
      split at hereB
      · cases hereB
        exact (free liveU a s notA hereA liveS).symm
      · exact apart a b s u different hereA hereB liveS liveU

theorem unowned_of_live (apart : RangesApart tablets) (there : tablets.get? name = some t)
    (live : t.state ≠ .retired) : Unowned tablets name t := by
  intro other u different here liveU
  exact apart name other t u different.symm there here live liveU

theorem rangesApart_update (apart : RangesApart tablets) {found : Tablet}
    (there : tablets.get? name = some found) (start : t.shardStart = found.shardStart)
    (stop : t.shardEnd = found.shardEnd) (state : t.state = found.state) : RangesApart (tablets.insert name t) := by
  refine (rangesApart_insert apart).mpr fun live other u different here liveU => ?_
  have before := unowned_of_live apart there (state ▸ live) other u different here liveU
  unfold Apart at before ⊢
  rw [start, stop]
  exact before

end

section
variable {tablets : Tablets}

theorem rangesApart_split (formed : Formed tablets) (apart : RangesApart tablets) {name right : String}
    {atShard : Nat} {parent : Tablet} (there : tablets.get? name = some parent)
    (fresh : tablets.get? right = none) (low : parent.shardStart < atShard)
    (high : atShard < parent.shardEnd) :
    RangesApart ((tablets.insert name { parent with shardEnd := atShard, state := .active }).insert right
        { parent with name := right, shardStart := atShard, state := .active }) ↔
      Unowned tablets name parent := by
  have other : name ≠ right := by
    rintro rfl
    simp [there] at fresh
  constructor
  · intro after u t different here live
    have notRight : u ≠ right := by
      rintro rfl
      simp [here] at fresh
    have lower := after name u { parent with shardEnd := atShard, state := .active } t different.symm
      (by simp [get?_insert, other]) (by simp [get?_insert, different, notRight, here])
      (by simp) live
    have upper := after right u { parent with name := right, shardStart := atShard, state := .active } t
      notRight.symm (by simp [get?_insert])
      (by simp [get?_insert, different, notRight, here]) (by simp) live
    have some := formed.ranged u t here
    unfold Apart at lower upper ⊢
    dsimp only at lower upper
    omega
  · intro free
    have first : RangesApart (tablets.insert name { parent with shardEnd := atShard, state := .active }) := by
      refine (rangesApart_insert apart).mpr fun _ u t different here live => ?_
      have before := free u t different here live
      unfold Apart at before ⊢
      dsimp only
      omega
    refine (rangesApart_insert first).mpr fun _ u t different here live => ?_
    rw [get?_insert] at here
    split at here
    · cases here
      exact .inr (le_refl atShard)
    · rename_i notName
      have before := free u t notName here live
      unfold Apart at before ⊢
      dsimp only
      omega

theorem rangesApart_merge (formed : Formed tablets) (apart : RangesApart tablets) {left right : String}
    {l r : Tablet} {degraded : Option DegradedMark} (hereLeft : tablets.get? left = some l)
    (hereRight : tablets.get? right = some r) (adjacent : l.shardEnd = r.shardStart) :
    RangesApart ((tablets.insert left { l with shardEnd := r.shardEnd, degraded }).erase right) ↔
      (l.state ≠ .retired → r.state = .retired → Unowned tablets right r) := by
  have lowL := formed.ranged left l hereLeft
  have lowR := formed.ranged right r hereRight
  have other : left ≠ right := by
    rintro rfl
    obtain rfl := Option.some.inj (hereLeft.symm.trans hereRight)
    omega
  constructor
  · intro after live _ u t notRight here liveU
    by_cases isLeft : u = left
    · obtain rfl := isLeft
      obtain rfl := Option.some.inj (hereLeft.symm.trans here)
      exact .inr (le_of_eq adjacent)
    · have joint := after left u { l with shardEnd := r.shardEnd, degraded } t (Ne.symm isLeft)
        (by simp [get?_erase, get?_insert, other])
        (by simp [get?_erase, get?_insert, notRight, isLeft, here]) live liveU
      unfold Apart at joint ⊢
      dsimp only at joint
      omega
  · intro free a b s t different hereA hereB liveS liveT
    have joint : l.state ≠ .retired → ∀ u t, u ≠ left → u ≠ right → tablets.get? u = some t →
        t.state ≠ .retired → Apart { l with shardEnd := r.shardEnd, degraded } t := by
      intro live u t notLeft notRight here liveU
      have some := formed.ranged u t here
      have first := apart left u l t (Ne.symm notLeft) hereLeft here live liveU
      have second : Apart r t := by
        by_cases gone : r.state = .retired
        · exact free live gone u t notRight here liveU
        · exact apart right u r t (Ne.symm notRight) hereRight here gone liveU
      unfold Apart at first second ⊢
      dsimp only
      omega
    rw [get?_erase, get?_insert] at hereA hereB
    split at hereA
    · cases hereA
    · rename_i notA
      split at hereB
      · cases hereB
      · rename_i notB
        split at hereA
        · rename_i isLeft
          cases hereA
          rw [if_neg (by rw [← isLeft]; exact different.symm)] at hereB
          exact joint liveS b t (by rw [← isLeft]; exact different.symm) notB hereB liveT
        · rename_i notLeft
          split at hereB
          · cases hereB
            exact (joint liveT a s notLeft notA hereA liveS).symm
          · exact apart a b s t different hereA hereB liveS liveT

theorem rangesApart_change {command : ControllerCommand} {after : Tablets} (formed : Formed tablets)
    (apart : RangesApart tablets) (change : Change tablets command after)
    (clear : Clear tablets command) : RangesApart after := by
  cases change with
  | same => exact apart
  | created low fresh free _ =>
    refine (rangesApart_insert apart).mpr fun _ other t _ here live => ?_
    exact free other t here live
  | reseated there _ => exact rangesApart_update apart there rfl rfl rfl
  | restated there _ =>
    rename_i name found state _
    refine (rangesApart_insert apart).mpr fun live => ?_
    by_cases gone : found.state = .retired
    · exact clear found there gone live
    · have free := unowned_of_live apart there gone
      exact free
  | failedOver there _ _ => exact rangesApart_update apart there rfl rfl rfl
  | split there fresh low high =>
    rename_i name right atShard parent
    refine (rangesApart_split formed apart there fresh low high).mpr ?_
    by_cases gone : parent.state = .retired
    · exact clear parent there gone fresh low high
    · exact unowned_of_live apart there gone
  | merged hereLeft hereRight adjacent same =>
    refine (rangesApart_merge formed apart hereLeft hereRight adjacent).mpr fun live gone => ?_
    exact clear _ _ hereLeft hereRight adjacent same live gone
  | marked there _ => exact rangesApart_update apart there rfl rfl rfl
  | cleared there => exact rangesApart_update apart there rfl rfl rfl

theorem clear_of_rangesApart {topology : Topology} {command : ControllerCommand}
    (formed : Formed topology.tablets) (apart : RangesApart topology.tablets)
    (after : RangesApart (topology.apply command).2.tablets) : Clear topology.tablets command := by
  rw [tablets_apply] at after
  cases command with
  | setTabletState name state =>
    intro found there gone live
    have changed : found.state ≠ state := by
      rw [gone]
      exact live.symm
    simp only [Topology.applyInner, Topology.onTablet, there, setState, if_neg changed] at after
    have free := (rangesApart_insert apart).mp after live
    exact free
  | splitTablet name atShard right =>
    intro parent there gone fresh low high
    have inside : ¬ (atShard ≤ parent.shardStart ∨ atShard ≥ parent.shardEnd) := by omega
    simp only [Topology.applyInner, Topology.splitTablet, fresh, there, if_neg inside, ne_eq,
      not_true_eq_false, if_false] at after
    exact (rangesApart_split formed apart there fresh low high).mp after
  | mergeTablets left right =>
    intro l r hereLeft hereRight adjacent same live gone
    simp only [Topology.applyInner, Topology.mergeTablets, hereLeft, hereRight, adjacent, same, ne_eq,
      not_true_eq_false, if_false] at after
    exact (rangesApart_merge formed apart hereLeft hereRight adjacent).mp after live gone
  | _ => trivial

end

section
variable {shard : Nat}

variable {t : Tablet}

theorem ownerFrom_mem {ts : List Tablet} {draining : Option Tablet} (found : ownerFrom shard ts draining = some t) :
    draining = some t ∨ (t ∈ ts ∧ t.state ≠ .retired ∧ t.owns shard = true) := by
  induction ts generalizing draining with
  | nil => exact .inl found
  | cons u ts ih =>
    unfold ownerFrom at found
    split at found
    · rcases ih found with held | ⟨inside, rest⟩
      · exact .inl held
      · exact .inr ⟨mem_cons_of_mem _ inside, rest⟩
    · rename_i owner
      have own : u.state ≠ .retired ∧ u.owns shard = true := by
        refine ⟨fun gone => owner (.inl gone), ?_⟩
        by_contra no
        exact owner (.inr (by simpa using no))
      split at found
      · cases found
        exact .inr ⟨mem_cons_self, own⟩
      · rcases ih found with held | ⟨inside, rest⟩
        · cases held
          exact .inr ⟨mem_cons_self, own⟩
        · exact .inr ⟨mem_cons_of_mem _ inside, rest⟩

theorem ownerFrom_eq {ts : List Tablet} {draining : Option Tablet}
    (alone : ∀ u ∈ ts, u.state ≠ .retired → u.owns shard = true → u = t)
    (held : draining = some t ∨ (draining = none ∧ t ∈ ts ∧ t.state ≠ .retired ∧ t.owns shard = true)) :
    ownerFrom shard ts draining = some t := by
  induction ts generalizing draining with
  | nil =>
    rcases held with held | ⟨-, inside, -⟩
    · exact held
    · cases inside
  | cons u ts ih =>
    have later : ∀ v ∈ ts, v.state ≠ .retired → v.owns shard = true → v = t :=
      fun v inside => alone v (mem_cons_of_mem _ inside)
    unfold ownerFrom
    split
    · rename_i skipped
      refine ih later ?_
      rcases held with held | ⟨empty, inside, live, own⟩
      · exact .inl held
      · rcases mem_cons.mp inside with rfl | inside
        · exact (skipped.elim live fun no => by simp [own] at no).elim
        · exact .inr ⟨empty, inside, live, own⟩
    · rename_i owner
      have same : u = t := by
        refine alone u mem_cons_self (fun gone => owner (.inl gone)) ?_
        by_contra no
        exact owner (.inr (by simpa using no))
      obtain rfl := same
      split
      · rfl
      · exact ih later (.inl rfl)

theorem ownerOf_mem {topology : Topology} (found : topology.ownerOf shard = some t) :
    ∃ name, topology.tablets.get? name = some t ∧ t.state ≠ .retired ∧ t.owns shard = true := by
  rcases ownerFrom_mem found with none | ⟨inside, live, own⟩
  · cases none
  · obtain ⟨name, there⟩ := mem_values_iff.mp inside
    exact ⟨name, there, live, own⟩

theorem owns_iff : t.owns shard = true ↔ t.shardStart ≤ shard ∧ shard < t.shardEnd := by
  simp [Tablet.owns]

theorem ownerOf_eq {topology : Topology} (apart : RangesApart topology.tablets) {name : String}
    (there : topology.tablets.get? name = some t) (live : t.state ≠ .retired)
    (own : t.owns shard = true) : topology.ownerOf shard = some t := by
  refine ownerFrom_eq ?_ (.inr ⟨rfl, mem_values_iff.mpr ⟨name, there⟩, live, own⟩)
  intro u inside liveU ownU
  obtain ⟨other, here⟩ := mem_values_iff.mp inside
  by_cases same : other = name
  · obtain rfl := same
    exact Option.some.inj (here.symm.trans there)
  · have far := apart other name u t same here there liveU live
    rw [owns_iff] at own ownU
    unfold Apart at far
    omega

end

namespace Topology

/-- Two tablets that are not retired own different shards, at least one each, and so the
owner of a shard is the only one. -/
def SingleOwner (topology : Topology) : Prop :=
  (∀ a b s t, a ≠ b → topology.tablets.get? a = some s → topology.tablets.get? b = some t →
    s.state ≠ .retired → t.state ≠ .retired → (∃ shard, s.owns shard) ∧ (∃ shard, t.owns shard) ∧
      ∀ shard, ¬ (s.owns shard ∧ t.owns shard)) ∧
    ∀ shard name t, topology.tablets.get? name = some t → t.state ≠ .retired → t.owns shard →
      topology.ownerOf shard = some t

variable {topology : Topology}

theorem singleOwner_iff (formed : Formed topology.tablets) : topology.SingleOwner ↔ RangesApart topology.tablets := by
  constructor
  · intro single a b s t different hereA hereB liveS liveT
    have low := formed.ranged a s hereA
    have high := formed.ranged b t hereB
    by_contra overlap
    unfold Apart at overlap
    refine (single.1 a b s t different hereA hereB liveS liveT).2.2 (max s.shardStart t.shardStart) ?_
    rw [owns_iff, owns_iff]
    omega
  · intro apart
    refine ⟨?_, fun shard name t there live own => ownerOf_eq apart there live own⟩
    intro a b s t different hereA hereB liveS liveT
    have low := formed.ranged a s hereA
    have high := formed.ranged b t hereB
    have far := apart a b s t different hereA hereB liveS liveT
    refine ⟨⟨s.shardStart, owns_iff.mpr ⟨le_refl _, low⟩⟩, ⟨t.shardStart, owns_iff.mpr ⟨le_refl _, high⟩⟩, ?_⟩
    intro shard both
    rw [owns_iff, owns_iff] at both
    unfold Apart at far
    omega

theorem formed_run (formed : Formed topology.tablets)
    (commands : List ControllerCommand) : Formed (topology.run commands).tablets := by
  induction commands generalizing topology with
  | nil => exact formed
  | cons command commands ih => exact ih (formed_change formed (apply_change topology command))

theorem formed_new : Formed new.tablets := by
  constructor <;> intro name t there <;> cases there

def after (topology : Topology) (command : ControllerCommand) : Topology := (topology.apply command).2

/-- Every command of a list meets a condition where it is applied. -/
abbrev Along (ok : Topology → ControllerCommand → Prop) : Topology → List ControllerCommand → Prop :=
  Lib.Along after ok

/-- The state behind every command of a list has a property, and so has the first. -/
abbrev Throughout (holds : Topology → Prop) : Topology → List ControllerCommand → Prop :=
  Lib.Throughout after holds

theorem singleOwner_apply (formed : Formed topology.tablets)
    (single : topology.SingleOwner) (command : ControllerCommand) :
    (topology.apply command).2.SingleOwner ↔ Clear topology.tablets command := by
  have apart := (singleOwner_iff formed).mp single
  have change := apply_change topology command
  rw [singleOwner_iff (formed_change formed change)]
  exact ⟨clear_of_rangesApart formed apart, rangesApart_change formed apart change⟩

theorem rangesApart_run (formed : Formed topology.tablets)
    (apart : RangesApart topology.tablets) {commands : List ControllerCommand}
    (clear : Along (fun topology command => Clear topology.tablets command) topology commands) :
    RangesApart (topology.run commands).tablets := by
  have kept := @Along.kept _ _ _ _ _ _ (fun topology => Formed topology.tablets ∧ RangesApart topology.tablets)
    clear (fun topology command ready clear => ?_) ⟨formed, apart⟩
  · exact kept.2
  · have change := apply_change topology command
    exact ⟨formed_change ready.1 change, rangesApart_change ready.1 ready.2 change clear⟩

theorem rangesApart_new : RangesApart new.tablets := by
  intro a b s t _ here
  cases here

/-- In a run from the empty topology a shard has at most one owner throughout exactly where
no command brings a retired range back over shards that somebody owns. -/
theorem shard_has_one_owner (commands : List ControllerCommand) : Throughout SingleOwner new commands ↔
      Along (fun topology command => Clear topology.tablets command) new commands := by
  refine @throughout_iff_along _ _ _ _ _ _ _ (fun topology _ => Formed topology.tablets) ?_ ?_ formed_new
    ((singleOwner_iff formed_new).mpr rangesApart_new)
  · intro topology command _ formed single
    exact singleOwner_apply formed single command
  · intro topology command _ formed _ _
    exact formed_change formed (apply_change topology command)

def plain (name : String) (shardStart shardEnd : Nat) : ControllerCommand :=
  .createTablet name "cell" "home" shardStart shardEnd [Member.voter "n1" "a1"] .localQuorum

/-- A retired tablet made active again stands beside the one that took its shards. -/
theorem shard_has_two_owners : ¬ Throughout SingleOwner new
    [plain "a" 0 8, .setTabletState "a" .retired, plain "b" 0 8, .setTabletState "a" .active] := by
  rintro ⟨-, -, -, -, single⟩
  refine (single.1 "a" "b" ⟨"a", "cell", "home", 1, .active, 0, 8, [Member.voter "n1" "a1"], .localQuorum, none⟩
    ⟨"b", "cell", "home", 1, .active, 0, 8, [Member.voter "n1" "a1"], .localQuorum, none⟩
    (by decide) (by decide) (by decide) (by decide) (by decide)).2.2 0 (by decide)

end Topology

end TallyOwl.Controller
