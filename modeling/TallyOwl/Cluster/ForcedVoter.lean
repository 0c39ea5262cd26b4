import TallyOwl.Cluster.GroupStorage

/-! A group that lost its other voters (`raft/storage.rs`). The survivor's file is rewritten to name it as the only
voter, and the log is cut before the first voter-set change that was never applied. A restart then starts from the
position the file reports, and from the committed position it saved. -/
open List TallyOwl.Lib.OrderedMap

namespace TallyOwl.Raft
open Lib

def Entry.changesVoters (entry : Entry) : Bool :=
  match entry.payload with
  | .membership _ => true
  | _ => false

namespace Disk
variable (disk : Disk)

def firstChange : Option Nat :=
  (disk.log.entries.find? fun x => countOf disk.applied ≤ x.1 ∧ x.2.changesVoters).map Prod.fst

/-- Name one node as the only voter. It answers how many log entries were dropped. -/
def forceSingleVoter (node : Nat) (address : String) : Disk × Nat :=
  let log := match disk.firstChange with
    | none => disk.log
    | some first => disk.log.filter fun index _ => index < first
  ({ disk with log, membership := some ⟨disk.applied, ⟨[[node]], [(node, address)]⟩⟩ },
    disk.log.entries.length - log.entries.length)

/-- The last position of the log: its last entry's, or the one it was purged through. -/
def lastLogId : Option LogId := (disk.log.entries.getLast?.map fun x => x.2.logId).or disk.purged

/-- A log without holes, from the position it was purged through. -/
structure Contiguous : Prop where
  own : ∀ x ∈ disk.log.entries, x.2.logId.index = x.1
  first : ∀ x ∈ disk.log.entries, countOf disk.purged ≤ x.1
  filled : ∀ x ∈ disk.log.entries, ∀ i, countOf disk.purged ≤ i → i < x.1 → ∃ y ∈ disk.log.entries, y.1 = i

/-- The group can start with one voter from a file that another was rewritten to. -/
structure Starts (before : Disk) (node : Nat) (address : String) : Prop where
  voter : disk.appliedState.2.membership = ⟨[[node]], [(node, address)]⟩
  changes : ∀ x ∈ disk.log.entries, countOf disk.appliedState.1 ≤ x.1 → ¬ x.2.changesVoters
  kept : ∀ x ∈ before.log.entries, (∀ y ∈ before.log.entries, countOf before.applied ≤ y.1 → y.2.changesVoters →
    x.1 < y.1) → x ∈ disk.log.entries
  committed : countOf disk.committed ≤ countOf disk.lastLogId

/-- What a cut leaves alone: no change of the voter set lies between the position of the snapshot that a machine
without its state starts from and the applied one, and none between the applied and the committed one. -/
structure Settled : Prop where
  replayed : disk.machineState = none → ∀ x ∈ disk.log.entries,
    countOf (disk.snapshotMeta.bind SnapshotMeta.lastLogId) ≤ x.1 → x.1 < countOf disk.applied → ¬ x.2.changesVoters
  committed : countOf disk.committed ≤ countOf disk.lastLogId
  waiting : ∀ x ∈ disk.log.entries, countOf disk.applied ≤ x.1 → x.1 < countOf disk.committed → ¬ x.2.changesVoters

variable {disk : Disk}

theorem firstChange_eq_none : disk.firstChange = none ↔
    ∀ x ∈ disk.log.entries, countOf disk.applied ≤ x.1 → ¬ x.2.changesVoters := by
  rw [firstChange, Option.map_eq_none_iff, find?_eq_none]
  simp

theorem firstChange_eq_some {first : Nat} (found : disk.firstChange = some first) :
    (∃ x ∈ disk.log.entries, x.1 = first ∧ countOf disk.applied ≤ first ∧ x.2.changesVoters) ∧
      ∀ x ∈ disk.log.entries, countOf disk.applied ≤ x.1 → x.2.changesVoters → first ≤ x.1 := by
  obtain ⟨x, there, rfl⟩ := Option.map_eq_some_iff.mp found
  obtain ⟨meets, before, after, split, none⟩ := find?_eq_some_iff_append.mp there
  obtain ⟨unapplied, changes⟩ := of_decide_eq_true meets
  have ascending := disk.log.ascending
  rw [split] at ascending ⊢
  refine ⟨⟨x, by simp, rfl, unapplied, changes⟩, fun y inside late changes => ?_⟩
  rcases mem_append.mp inside with early | later
  · have other := none y early
    simp [late, changes] at other
  · rcases mem_cons.mp later with rfl | later
    · exact le_rfl
    · exact ((pairwise_cons.mp (pairwise_append.mp ascending).2.1).1 y later).le

theorem le_last {log : OrderedMap Nat Entry} {last x : Nat × Entry} (there : log.entries.getLast? = some last)
    (inside : x ∈ log.entries) : x.1 ≤ last.1 := by
  obtain ⟨front, split⟩ := getLast?_eq_some_iff.mp there
  have ascending := log.ascending
  rw [split] at ascending inside
  rcases mem_append.mp inside with early | same
  · exact ((pairwise_append.mp ascending).2.2 x early last (mem_singleton_self _)).le
  · rw [mem_singleton.mp same]

theorem lt_countOf_lastLogId (contiguous : disk.Contiguous) {x : Nat × Entry} (inside : x ∈ disk.log.entries) :
    x.1 < countOf disk.lastLogId := by
  cases there : disk.log.entries.getLast? with
  | none =>
    rw [getLast?_eq_none_iff.mp there] at inside
    cases inside
  | some last =>
    have most := le_last there inside
    have own := contiguous.own last (mem_of_getLast? there)
    simp only [lastLogId, there, Option.map_some, Option.some_or, countOf, Option.getD_some]
    omega

theorem countOf_lastLogId_cut (contiguous : disk.Contiguous) {x : Nat × Entry} (inside : x ∈ disk.log.entries) :
    countOf { disk with log := disk.log.filter fun index _ => index < x.1 }.lastLogId = x.1 := by
  have left {y : Nat × Entry} : y ∈ (disk.log.filter fun index _ => index < x.1).entries ↔
      y ∈ disk.log.entries ∧ y.1 < x.1 := by
    rw [OrderedMap.mem_filter, decide_eq_true_iff]
  have start := contiguous.first x inside
  cases there : (disk.log.filter fun index _ => index < x.1).entries.getLast? with
  | none =>
    -- no entry is left, so the log started here
    have empty := getLast?_eq_none_iff.mp there
    simp only [lastLogId, there, Option.map_none, Option.none_or]
    by_contra other
    obtain ⟨y, known, index⟩ := contiguous.filled x inside (countOf disk.purged) le_rfl (by omega)
    have held := left.mpr ⟨known, by omega⟩
    rw [empty] at held
    cases held
  | some last =>
    obtain ⟨known, low⟩ := left.mp (mem_of_getLast? there)
    have own := contiguous.own last known
    have begins := contiguous.first last known
    simp only [lastLogId, there, Option.map_some, Option.some_or, countOf, Option.getD_some]
    by_contra other
    obtain ⟨y, held, index⟩ := contiguous.filled x inside (x.1 - 1) (by omega) (by omega)
    have most := le_last there (left.mpr ⟨held, by omega⟩)
    omega

section
variable {node : Nat} {address : String}

theorem mem_forceSingleVoter {x : Nat × Entry} : x ∈ (disk.forceSingleVoter node address).1.log.entries ↔
    x ∈ disk.log.entries ∧ ∀ y ∈ disk.log.entries, countOf disk.applied ≤ y.1 → y.2.changesVoters → x.1 < y.1 := by
  unfold forceSingleVoter
  cases found : disk.firstChange with
  | none =>
    have settled := firstChange_eq_none.mp found
    exact ⟨fun inside => ⟨inside, fun y known late changes => (settled y known late changes).elim⟩, And.left⟩
  | some first =>
    obtain ⟨⟨y, known, rfl, late, changes⟩, least⟩ := firstChange_eq_some found
    dsimp only
    rw [OrderedMap.mem_filter, decide_eq_true_iff]
    exact and_congr_right fun inside => ⟨fun low z there late changes => low.trans_le (least z there late changes),
      fun below => below y known late changes⟩

/-- The committed position is in what is left of the log exactly where it was in the log, before every change that
was never applied. -/
theorem committed_iff (contiguous : disk.Contiguous) :
    countOf disk.committed ≤ countOf (disk.forceSingleVoter node address).1.lastLogId ↔
      countOf disk.committed ≤ countOf disk.lastLogId ∧ ∀ x ∈ disk.log.entries, countOf disk.applied ≤ x.1 →
        x.1 < countOf disk.committed → ¬ x.2.changesVoters := by
  cases found : disk.firstChange with
  | none =>
    have settled := firstChange_eq_none.mp found
    have same : (disk.forceSingleVoter node address).1.lastLogId = disk.lastLogId := by
      rw [forceSingleVoter, found]
      rfl
    rw [same]
    exact ⟨fun low => ⟨low, fun x inside late _ => settled x inside late⟩, And.left⟩
  | some first =>
    obtain ⟨⟨x, inside, rfl, late, changes⟩, least⟩ := firstChange_eq_some found
    have cut : countOf (disk.forceSingleVoter node address).1.lastLogId = x.1 := by
      rw [forceSingleVoter, found]
      exact countOf_lastLogId_cut contiguous inside
    have below := lt_countOf_lastLogId contiguous inside
    rw [cut]
    constructor
    · intro low
      refine ⟨by omega, fun y known late' early changes' => ?_⟩
      have first := least y known late' changes'
      omega
    · rintro ⟨-, waiting⟩
      by_contra high
      exact waiting x inside late (by omega) changes

theorem changes_iff : (∀ x ∈ (disk.forceSingleVoter node address).1.log.entries,
      countOf (disk.forceSingleVoter node address).1.appliedState.1 ≤ x.1 → ¬ x.2.changesVoters) ↔
    (disk.machineState = none → ∀ x ∈ disk.log.entries,
      countOf (disk.snapshotMeta.bind SnapshotMeta.lastLogId) ≤ x.1 → x.1 < countOf disk.applied →
        ¬ x.2.changesVoters) := by
  have same : (disk.forceSingleVoter node address).1.machineState = disk.machineState := rfl
  cases stateless : disk.machineState with
  | none =>
    have state : (disk.forceSingleVoter node address).1.appliedState.1 =
        disk.snapshotMeta.bind SnapshotMeta.lastLogId := by
      rw [appliedState, same, stateless]
      rfl
    rw [state]
    constructor
    · intro settled _ x inside late early changes
      refine settled x (mem_forceSingleVoter.mpr ⟨inside, fun y _ unapplied _ => by omega⟩) late changes
    · intro replayed x inside late changes
      obtain ⟨known, before⟩ := mem_forceSingleVoter.mp inside
      refine replayed rfl x known late ?_ changes
      by_contra unapplied
      exact absurd (before x known (by omega) changes) (lt_irrefl _)
  | some held =>
    have state : (disk.forceSingleVoter node address).1.appliedState.1 = disk.applied := by
      rw [appliedState, same, stateless]
      rfl
    rw [state]
    refine ⟨fun _ is => (by cases is), fun _ x inside late changes => ?_⟩
    obtain ⟨known, before⟩ := mem_forceSingleVoter.mp inside
    exact absurd (before x known late changes) (lt_irrefl _)

end

/-- A group can start from a file that was rewritten exactly where its changes of the voter set were settled. -/
theorem starts_iff (disk : Disk) (contiguous : disk.Contiguous) (node : Nat) (address : String) :
    (disk.forceSingleVoter node address).1.Starts disk node address ↔ disk.Settled := by
  constructor
  · intro starts
    obtain ⟨committed, waiting⟩ := (committed_iff contiguous).mp starts.committed
    exact ⟨changes_iff.mp starts.changes, committed, waiting⟩
  · intro settled
    refine ⟨?_, changes_iff.mpr settled.replayed, fun x inside before => mem_forceSingleVoter.mpr ⟨inside, before⟩,
      (committed_iff contiguous).mpr ⟨settled.committed, settled.waiting⟩⟩
    unfold appliedState
    split <;> rfl

def entryAt (index : Nat) (payload : EntryPayload) : Nat × Entry := (index, ⟨⟨1, 1, index⟩, payload⟩)

def three : Membership := ⟨[[1, 2, 3]], [(1, "a"), (2, "b"), (3, "c")]⟩

/-- The group of three and a command are applied, and one more command waits. -/
def quiet : Disk :=
  { Disk.empty with
    log := ⟨[entryAt 0 (.membership three), entryAt 1 (.normal [7]), entryAt 2 (.normal [8])], by decide⟩
    committed := some ⟨1, 1, 2⟩
    applied := some ⟨1, 1, 1⟩
    membership := some ⟨some ⟨1, 1, 0⟩, three⟩
    machineStateRecord := some [1] }

/-- The same, where the entry that waits changes the voters and is committed. -/
def changing : Disk :=
  { quiet with
    log := ⟨[entryAt 0 (.membership three), entryAt 1 (.normal [7]), entryAt 2 (.membership ⟨[[1, 2]], []⟩)],
      by decide⟩ }

theorem contiguous_quiet : quiet.Contiguous := by
  constructor <;> simp [quiet, entryAt, countOf, Disk.empty]
  omega

theorem contiguous_changing : changing.Contiguous := by
  constructor <;> simp [changing, quiet, entryAt, countOf, Disk.empty]
  omega

theorem starts_iff_quiet : (quiet.forceSingleVoter 1 "a").1.Starts quiet 1 "a" :=
  (starts_iff quiet contiguous_quiet 1 "a").mpr
    ⟨fun stateless => (by cases stateless), by decide, by simp [quiet, entryAt, countOf, Entry.changesVoters]⟩

theorem committed_past_log : ¬ ∀ (disk : Disk), disk.Contiguous → countOf disk.applied ≤ countOf disk.committed →
    ∀ (node : Nat) (address : String), (disk.forceSingleVoter node address).1.Starts disk node address := by
  intro all
  have starts := all changing contiguous_changing (by decide) 1 "a"
  have past := starts.committed
  revert past
  decide

end Disk
end TallyOwl.Raft
