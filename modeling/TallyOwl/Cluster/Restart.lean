import TallyOwl.Cluster.GroupStorage
import TallyOwl.Lib.Runs

/-! Where a restarted group is. The position, the machine's state and the snapshot are
written by different calls, and a group without a state record goes back to its snapshot. A
snapshot built then, before anything is applied again, takes the machine's state from memory
and the position from the file, which are not those of one point. -/
namespace TallyOwl.Raft
open Lib List OrderedMap

/-- What a deterministic machine keeps to: its own bytes bring a state back, so does what a
peer is sent of it, and an install from a peer is an install. -/
structure Faithful {M : Type*} (machine : GroupMachine M) : Prop where
  restores : ∀ m, machine.snapshot m ≠ [] → machine.install (machine.snapshot m) = .ok m
  restoresPeer : ∀ holder state data m, machine.install state = .ok m →
    machine.snapshotForPeer holder state = .ok data → machine.install data = .ok m
  adopts : ∀ holder data index peers m, machine.installFromPeer holder data index peers = .ok m →
    machine.install data = .ok m

structure Node (M : Type*) where
  disk : Disk
  machine : M
  snapshotCount : Nat
  position : Nat
  commit : Nat
  /-- The newest vote that `save_vote` returned for. Nothing reads it. -/
  promised : Option Vote

inductive Event where
  | append (entries : List Entry)
  | truncate (logId : LogId)
  | purge (logId : LogId)
  | saveVote (vote : Vote)
  | saveCommitted (committed : LogId)
  | apply (entries : List Entry)
  | buildSnapshot (prepared : Bool)
  | installSnapshot (snapshot : SnapshotMeta) (data : Bytes)
  | reopen

section
variable {M : Type*} (machine : GroupMachine M)

/-- What a call leaves. A call that fails stops the group, which is a crash. -/
def step (node : Node M) : Event → Option (Node M)
  | .append entries => some { node with disk := node.disk.append entries }
  | .truncate logId => some { node with disk := node.disk.truncate logId }
  | .purge logId => some { node with disk := node.disk.purge logId }
  | .saveVote vote => some { node with disk := node.disk.saveVote vote, promised := some vote }
  | .saveCommitted committed =>
      some { node with
        disk := node.disk.saveCommitted (some committed)
        commit := max node.commit (committed.index + 1) }
  | .apply entries =>
      match takeAll machine node.machine entries with
      | .error _ => none
      | .ok m => some { node with
          disk := node.disk.apply machine m entries
          machine := m
          position := node.position + entries.length
          commit := max node.commit (node.position + entries.length) }
  | .buildSnapshot prepared =>
      let built := node.disk.buildSnapshot machine node.machine node.snapshotCount prepared
      some { node with disk := built.1, snapshotCount := built.2 }
  | .installSnapshot snapshot data =>
      match machine.installFromPeer node.machine data ((snapshot.lastLogId.map LogId.index).getD 0)
          (snapshot.lastMembership.membership.nodes.map Prod.snd) with
      | .error _ => none
      | .ok m => some { node with
          disk := node.disk.installSnapshot machine m snapshot data
          machine := m
          position := countOf snapshot.lastLogId
          commit := max node.commit (countOf snapshot.lastLogId) }
  | .reopen =>
      match node.disk.opened machine with
      | .error _ => none
      | .ok m => some { node with
          machine := m, snapshotCount := 0, position := countOf node.disk.appliedState.1 }

/-- A position names the last of the first entries of the committed log. -/
def Names (history : List Entry) (position : Option LogId) : Prop :=
  ∀ id, position = some id → (history[id.index]?).map Entry.logId = some id

def Indexed (history : List Entry) : Prop :=
  ∀ (i : Nat) (entry : Entry), history[i]? = some entry → entry.logId.index = i

/-- How the algorithm calls: it never writes over or truncates what is committed, purges at
or below the snapshot, votes forward, applies the committed entries of its log in order, and
installs a snapshot of the committed log that is not behind. -/
def Called (history : List Entry) (node : Node M) : Event → Prop
  | .append entries => ∀ entry ∈ entries, entry.logId.index < node.commit →
      history[entry.logId.index]? = some entry
  | .truncate logId => node.commit ≤ logId.index
  | .purge logId => logId.index < countOf (node.disk.snapshotMeta.bind SnapshotMeta.lastLogId)
  | .saveVote vote => ∀ old, node.promised = some old → old ≤ vote
  | .saveCommitted committed => ∀ i, node.position ≤ i → i ≤ committed.index →
      i < history.length ∧ node.disk.log.get? i = history[i]?
  | .apply entries => entries = (history.drop node.position).take entries.length ∧
      ∀ i, node.position ≤ i → i < node.position + entries.length → node.disk.log.get? i = history[i]?
  | .buildSnapshot _ => True
  | .installSnapshot snapshot data => node.position ≤ countOf snapshot.lastLogId ∧
      Names history snapshot.lastLogId ∧ ∃ m, stateAt machine history (countOf snapshot.lastLogId) = .ok m ∧
        machine.install data = .ok m
  | .reopen => True

/-- A snapshot is built from a state record, or from a machine that is where the file's
position says and that has bytes. -/
def Agreed (node : Node M) : Event → Prop
  | .buildSnapshot _ => node.disk.machineState ≠ none ∨
      (countOf node.disk.applied = node.position ∧ machine.snapshot node.machine ≠ [])
  | _ => True

/-- What a file holds of the committed log, whatever the machine is. -/
structure Holds (history : List Entry) (commit : Nat) (disk : Disk) : Prop where
  known : commit ≤ history.length
  entries : ∀ i, countOf (disk.snapshotMeta.bind SnapshotMeta.lastLogId) ≤ i → i < commit →
    disk.log.get? i = history[i]?
  snapshot : (disk.snapshotMeta = none ∧ disk.snapshotData = none) ∨ ∃ snapshot data m,
    disk.snapshotMeta = some snapshot ∧ disk.snapshotData = some data ∧ Names history snapshot.lastLogId ∧
      stateAt machine history (countOf snapshot.lastLogId) = .ok m ∧ machine.install data = .ok m
  applied : Names history disk.applied
  ahead : countOf (disk.snapshotMeta.bind SnapshotMeta.lastLogId) ≤ countOf disk.applied
  within : countOf disk.applied ≤ commit

/-- A node that opened a file without a state record, which a new file is. -/
structure Starts (history : List Entry) (node : Node M) : Prop where
  bare : node.disk.machineStateRecord = none
  holds : Holds machine history node.commit node.disk
  opened : node.disk.opened machine = .ok node.machine
  position : node.position = countOf node.disk.appliedState.1
  promised : node.promised = node.disk.vote

/-- A file that is opened is where it says: its machine has the state behind the entries up
to the position it reports, the committed entries behind that are in its log, and its vote is
no older than one that was promised. -/
structure WhereItSays (history : List Entry) (node : Node M) : Prop where
  state : ∃ m, node.disk.opened machine = .ok m ∧
    stateAt machine history (countOf node.disk.appliedState.1) = .ok m
  names : Names history node.disk.appliedState.1
  entries : ∀ i, countOf node.disk.appliedState.1 ≤ i → i < node.commit →
    i < history.length ∧ node.disk.log.get? i = history[i]?
  vote : ∀ old, node.promised = some old → ∃ vote, node.disk.vote = some vote ∧ old ≤ vote

/-- A node that runs: its machine is at the position it counts, and so is a state record. -/
structure Running (history : List Entry) (node : Node M) : Prop where
  holds : Holds machine history node.commit node.disk
  record : ∀ state, node.disk.machineState = some state → countOf node.disk.applied = node.position ∧
    ∃ m, stateAt machine history node.position = .ok m ∧ machine.install state = .ok m
  state : stateAt machine history node.position = .ok node.machine
  low : countOf (node.disk.snapshotMeta.bind SnapshotMeta.lastLogId) ≤ node.position
  high : node.position ≤ node.commit
  vote : ∀ old, node.promised = some old → ∃ vote, node.disk.vote = some vote ∧ old ≤ vote

end

section
variable {M : Type*} {machine : GroupMachine M} {history : List Entry} {node : Node M}

theorem Running.whereItSays (running : Running machine history node) : WhereItSays machine history node := by
  have holds := running.holds
  cases stored : node.disk.machineState with
  | some state =>
    obtain ⟨level, m, reached, restored⟩ := running.record state stored
    have reports : node.disk.appliedState.1 = node.disk.applied := by simp [Disk.appliedState, stored]
    refine ⟨⟨m, ?_, ?_⟩, ?_, ?_, running.vote⟩
    · simp [Disk.opened, stored, restored]
    · rw [reports, level]
      exact reached
    · rw [reports]
      exact holds.applied
    · intro i low high
      rw [reports] at low
      exact ⟨high.trans_le holds.known, holds.entries i (holds.ahead.trans low) high⟩
  | none =>
    have reports : node.disk.appliedState.1 = node.disk.snapshotMeta.bind SnapshotMeta.lastLogId := by
      simp [Disk.appliedState, stored]
    have entries : ∀ i, countOf node.disk.appliedState.1 ≤ i → i < node.commit →
        i < history.length ∧ node.disk.log.get? i = history[i]? := by
      intro i low high
      rw [reports] at low
      exact ⟨high.trans_le holds.known, holds.entries i low high⟩
    rcases holds.snapshot with ⟨noMeta, noData⟩ | ⟨snapshot, data, m, someMeta, someData, names, reached, restored⟩
    · refine ⟨⟨machine.new, ?_, ?_⟩, ?_, entries, running.vote⟩
      · simp [Disk.opened, stored, noData]
      · simp [reports, noMeta, countOf, stateAt, takeAll, pure, Except.pure]
      · simp [reports, noMeta, Names]
    · have last : node.disk.snapshotMeta.bind SnapshotMeta.lastLogId = snapshot.lastLogId := by simp [someMeta]
      refine ⟨⟨m, ?_, ?_⟩, ?_, entries, running.vote⟩
      · simp [Disk.opened, stored, someData, restored]
      · rw [reports, last]
        exact reached
      · rw [reports, last]
        exact names

theorem Starts.running (starts : Starts machine history node) : Running machine history node := by
  have none : node.disk.machineState = none := by simp [Disk.machineState, starts.bare]
  have reports : node.disk.appliedState.1 = node.disk.snapshotMeta.bind SnapshotMeta.lastLogId := by
    simp [Disk.appliedState, none]
  have position := starts.position
  rw [reports] at position
  refine ⟨starts.holds, ?_, ?_, le_of_eq position.symm, ?_, ?_⟩
  · intro state stored
    rw [none] at stored
    cases stored
  · rw [position]
    have opened := starts.opened
    rcases starts.holds.snapshot with ⟨noMeta, noData⟩ |
      ⟨snapshot, data, m, someMeta, someData, names, reached, restored⟩
    · simp only [Disk.opened, none, noData] at opened
      rw [← Except.ok.inj opened]
      simp [noMeta, countOf, stateAt, takeAll, pure, Except.pure]
    · simp only [Disk.opened, none, someData, restored] at opened
      rw [← Except.ok.inj opened]
      simpa [someMeta] using reached
  · rw [position]
    exact starts.holds.ahead.trans starts.holds.within
  · intro old is
    rw [starts.promised] at is
    exact ⟨old, is, le_refl _⟩

variable {m : M}

theorem takeAll_append {first second : List Entry} :
    takeAll machine m (first ++ second) = takeAll machine m first >>= fun m => takeAll machine m second :=
  foldlM_append

theorem stateAt_add {position length : Nat} {m m' : M} (before : stateAt machine history position = .ok m)
    (taken : takeAll machine m ((history.drop position).take length) = .ok m') :
    stateAt machine history (position + length) = .ok m' := by
  rw [stateAt, take_add, takeAll_append]
  rw [stateAt] at before
  rw [before]
  exact taken

theorem Names.count_le {position : Option LogId} (names : Names history position) :
    countOf position ≤ history.length := by
  cases position with
  | none => exact Nat.zero_le _
  | some id =>
    obtain ⟨entry, found, -⟩ := Option.map_eq_some_iff.mp (names id rfl)
    exact (List.getElem?_eq_some_iff.mp found).1

variable {entries : List Entry}

theorem positionAfter_of_batch (indexed : Indexed history) {position : Nat}
    (applied : Option LogId) (some : entries ≠ []) (batch : entries = (history.drop position).take entries.length) :
    Names history (positionAfter applied entries) ∧
      countOf (positionAfter applied entries) = position + entries.length := by
  obtain ⟨before, entry, rfl⟩ := (eq_nil_or_concat entries).resolve_left some
  rw [concat_eq_append] at batch ⊢
  have last : positionAfter applied (before ++ [entry]) = .some entry.logId := by
    simp [positionAfter, foldl_append]
  have found : history[position + before.length]? = .some entry := by
    have here : (before ++ [entry])[before.length]? = .some entry := by simp
    rw [batch, getElem?_take_of_lt (by simp), getElem?_drop] at here
    exact here
  have index := indexed _ entry found
  rw [last]
  constructor
  · intro id is
    cases is
    rw [index, found]
    rfl
  · simp [countOf, index, Nat.add_assoc]

variable {disk : Disk}

theorem get?_append {i : Nat} (here : disk.log.get? i = history[i]?)
    (same : ∀ entry ∈ entries, entry.logId.index = i → history[i]? = some entry) :
    (disk.append entries).log.get? i = history[i]? := by
  induction entries generalizing disk with
  | nil => exact here
  | cons entry rest ih =>
    have first : (disk.append [entry]).log.get? i = history[i]? := by
      simp only [Disk.append, foldl_cons, foldl_nil, get?_insert]
      split
      · rename_i index
        exact (same entry mem_cons_self index.symm).symm
      · exact here
    exact ih first fun other inside => same other (mem_cons_of_mem _ inside)

theorem Holds.logged {commit : Nat} {log : OrderedMap Nat Entry} (purged : Option LogId)
    (holds : Holds machine history commit disk)
    (keeps : ∀ i, countOf (disk.snapshotMeta.bind SnapshotMeta.lastLogId) ≤ i → i < commit →
      disk.log.get? i = history[i]? → log.get? i = history[i]?) :
    Holds machine history commit { disk with log, purged } where
  known := holds.known
  entries := fun i low high => keeps i low high (holds.entries i low high)
  snapshot := holds.snapshot
  applied := holds.applied
  ahead := holds.ahead
  within := holds.within

theorem Holds.further {commit : Nat} (next : Nat) (holds : Holds machine history commit disk)
    (more : ∀ i, commit ≤ i → i < next → i < history.length ∧ disk.log.get? i = history[i]?) :
    Holds machine history (max commit next) disk where
  known := by
    by_contra beyond
    have far : history.length < next := by have := holds.known; omega
    exact absurd (more (next - 1) (by have := holds.known; omega) (by omega)).1 (by omega)
  entries := fun i low high => by
    by_cases old : i < commit
    · exact holds.entries i low old
    · exact (more i (by omega) (by omega)).2
  snapshot := holds.snapshot
  applied := holds.applied
  ahead := holds.ahead
  within := holds.within.trans (Nat.le_max_left _ _)

theorem Running.apply (faithful : Faithful machine) (indexed : Indexed history)
    (running : Running machine history node)
    (called : Called machine history node (.apply entries))
    (taken : takeAll machine node.machine entries = .ok m) :
    Running machine history { node with
      disk := node.disk.apply machine m entries, machine := m
      position := node.position + entries.length
      commit := max node.commit (node.position + entries.length) } := by
  obtain ⟨batch, logged⟩ := called
  have reached : stateAt machine history (node.position + entries.length) = .ok m := by
    refine stateAt_add running.state ?_
    rw [← batch]
    exact taken
  have within : node.position + entries.length ≤ history.length ∨ entries = [] := by
    by_cases empty : entries = []
    · exact .inr empty
    · have length := congrArg List.length batch
      rw [length_take, length_drop] at length
      have := length_pos_iff.mpr empty
      exact .inl (by omega)
  have holds : Holds machine history (max node.commit (node.position + entries.length)) node.disk := by
    refine running.holds.further _ fun i low high => ⟨?_, logged i (running.high.trans low) high⟩
    rcases within with within | rfl
    · omega
    · have := running.high
      simp at high
      omega
  by_cases empty : entries = []
  · subst empty
    have same : m = node.machine := by simpa [takeAll, pure, Except.pure, eq_comm] using taken
    subst same
    have commit : max node.commit node.position = node.commit := max_eq_left running.high
    simp only [Disk.apply, if_true, length_nil, Nat.add_zero, commit]
    exact running
  obtain ⟨names, count⟩ := positionAfter_of_batch indexed node.disk.applied empty batch
  refine ⟨⟨holds.known, ?_, ?_, ?_, ?_, ?_⟩, ?_, reached, ?_, Nat.le_max_right _ _, ?_⟩
  all_goals simp only [Disk.apply, if_neg empty, Disk.machineState]
  · exact holds.entries
  · exact holds.snapshot
  · exact names
  · rw [count]
    exact running.low.trans (Nat.le_add_right _ _)
  · rw [count]
    exact Nat.le_max_right _ _
  · intro state stored
    obtain ⟨is, some⟩ := Option.filter_eq_some_iff.mp stored
    cases is
    exact ⟨count, m, reached, faithful.restores m (by simpa using some)⟩
  · exact running.low.trans (Nat.le_add_right _ _)
  · exact running.vote

theorem Running.buildSnapshot (faithful : Faithful machine) (running : Running machine history node)
    {prepared : Bool} (agreed : Agreed machine node (.buildSnapshot prepared)) :
    Running machine history { node with
      disk := (node.disk.buildSnapshot machine node.machine node.snapshotCount prepared).1
      snapshotCount := (node.disk.buildSnapshot machine node.machine node.snapshotCount prepared).2 } := by
  have held : countOf node.disk.applied = node.position ∧ ∃ m, stateAt machine history node.position = .ok m ∧
      machine.install (node.disk.appliedPair.2.getD (machine.snapshot node.machine)) = .ok m := by
    cases stored : node.disk.machineState with
    | some state => simpa [Disk.appliedPair, stored] using running.record state stored
    | none =>
      obtain ⟨level, bytes⟩ := agreed.resolve_left (fun some => some stored)
      refine ⟨level, node.machine, running.state, ?_⟩
      simpa [Disk.appliedPair, stored] using faithful.restores node.machine bytes
  obtain ⟨level, m, reached, restored⟩ := held
  have holds := running.holds
  cases prepared with
  | false => exact running
  | true =>
    cases encoded : machine.snapshotForPeer node.machine
        (node.disk.appliedPair.2.getD (machine.snapshot node.machine)) with
    | error _ =>
      simp only [Disk.buildSnapshot, if_true, encoded]
      exact running
    | ok data =>
      simp only [Disk.buildSnapshot, if_true, encoded, Disk.storeSnapshot]
      refine ⟨⟨holds.known, ?_, .inr ⟨_, data, m, rfl, rfl, holds.applied, ?_, ?_⟩, holds.applied, ?_,
        holds.within⟩, running.record, running.state, ?_, running.high, running.vote⟩
      · intro i low high
        exact holds.entries i (holds.ahead.trans low) high
      · show stateAt machine history (countOf node.disk.applied) = .ok m
        rw [level]
        exact reached
      · exact faithful.restoresPeer _ _ _ _ restored encoded
      · exact le_refl _
      · exact le_of_eq level

theorem Running.installSnapshot (faithful : Faithful machine) (running : Running machine history node)
    {snapshot : SnapshotMeta} {data : Bytes} {index : Nat} {peers : List String}
    (called : Called machine history node (.installSnapshot snapshot data))
    (installed : machine.installFromPeer node.machine data index peers = .ok m) :
    Running machine history { node with
      disk := node.disk.installSnapshot machine m snapshot data, machine := m
      position := countOf snapshot.lastLogId
      commit := max node.commit (countOf snapshot.lastLogId) } := by
  obtain ⟨forward, names, m', reached, restored⟩ := called
  have same : m' = m := by
    have adopted := faithful.adopts _ _ _ _ _ installed
    rw [restored] at adopted
    exact Except.ok.inj adopted
  subst same
  have holds := running.holds
  refine ⟨⟨Nat.max_le.mpr ⟨holds.known, names.count_le⟩, ?_, .inr ⟨snapshot, data, m', rfl, rfl, names, reached,
    restored⟩, names, le_refl _, Nat.le_max_right _ _⟩, ?_, reached, le_refl _, Nat.le_max_right _ _, running.vote⟩
  · intro i low high
    have old : i < node.commit := (lt_max_iff.mp high).resolve_right (not_lt_of_ge low)
    exact holds.entries i (running.low.trans (forward.trans low)) old
  · intro state stored
    obtain ⟨is, some⟩ := Option.filter_eq_some_iff.mp stored
    cases is
    exact ⟨rfl, m', reached, faithful.restores m' (by simpa using some)⟩

theorem Running.reopen (running : Running machine history node) (opened : node.disk.opened machine = .ok m) :
    Running machine history { node with
      machine := m, snapshotCount := 0, position := countOf node.disk.appliedState.1 } := by
  obtain ⟨m', opens, reached⟩ := running.whereItSays.state
  have same : m' = m := by
    rw [opens] at opened
    exact Except.ok.inj opened
  subst same
  have holds := running.holds
  cases stored : node.disk.machineState with
  | some state =>
    have reports : node.disk.appliedState.1 = node.disk.applied := by simp [Disk.appliedState, stored]
    rw [reports] at reached ⊢
    refine ⟨holds, ?_, reached, holds.ahead, holds.within, running.vote⟩
    intro other is
    obtain ⟨level, m, reached, restored⟩ := running.record other is
    refine ⟨rfl, m, ?_, restored⟩
    rw [level]
    exact reached
  | none =>
    have reports : node.disk.appliedState.1 = node.disk.snapshotMeta.bind SnapshotMeta.lastLogId := by
      simp [Disk.appliedState, stored]
    rw [reports] at reached ⊢
    refine ⟨holds, ?_, reached, le_refl _, holds.ahead.trans holds.within, running.vote⟩
    intro other is
    rw [stored] at is
    cases is

theorem Running.step (faithful : Faithful machine) (indexed : Indexed history) {next : Node M} {event : Event}
    (running : Running machine history node) (called : Called machine history node event)
    (agreed : Agreed machine node event) (moved : step machine node event = some next) :
    Running machine history next := by
  have holds := running.holds
  cases event with
  | append entries =>
    cases moved
    refine ⟨holds.logged node.disk.purged fun i low high here => ?_, running.record, running.state, running.low,
      running.high, running.vote⟩
    refine get?_append here fun entry inside index => ?_
    rw [← index]
    exact called entry inside (by omega)
  | truncate logId =>
    cases moved
    refine ⟨holds.logged node.disk.purged fun i low high here => ?_, running.record, running.state, running.low,
      running.high, running.vote⟩
    have kept : i < logId.index := high.trans_le called
    exact (get?_filter fun _ => by simpa using kept).trans here
  | purge logId =>
    cases moved
    refine ⟨holds.logged (some logId) fun i low high here => ?_, running.record, running.state, running.low,
      running.high, running.vote⟩
    have kept : logId.index < i := lt_of_lt_of_le called low
    exact (get?_filter fun _ => by simpa using kept).trans here
  | saveVote vote =>
    cases moved
    refine ⟨⟨holds.known, holds.entries, holds.snapshot, holds.applied, holds.ahead, holds.within⟩,
      running.record, running.state, running.low, running.high, ?_⟩
    intro old is
    cases is
    exact ⟨vote, rfl, le_refl _⟩
  | saveCommitted committed =>
    cases moved
    have further := holds.further (committed.index + 1) fun i low high =>
      called i (running.high.trans low) (Nat.le_of_lt_succ high)
    exact ⟨⟨further.known, further.entries, further.snapshot, further.applied, further.ahead, further.within⟩,
      running.record, running.state, running.low, running.high.trans (Nat.le_max_left _ _), running.vote⟩
  | apply entries =>
    simp only [Raft.step] at moved
    split at moved
    · cases moved
    · cases moved
      exact running.apply faithful indexed called ‹_›
  | buildSnapshot prepared =>
    cases moved
    exact running.buildSnapshot faithful agreed
  | installSnapshot snapshot data =>
    simp only [Raft.step] at moved
    split at moved
    · cases moved
    · cases moved
      exact running.installSnapshot faithful called ‹_›
  | reopen =>
    simp only [Raft.step] at moved
    split at moved
    · cases moved
    · cases moved
      exact running.reopen ‹_›

/-- In every run of the calls in which snapshots are built from a state record or from a
machine that is where the file's position says, what is opened again is where it says. -/
theorem restarted_where_reported (faithful : Faithful machine) (indexed : Indexed history) {start : Node M}
    (starts : Starts machine history start)
    (run : Reach (step machine) (fun node event => Called machine history node event ∧ Agreed machine node event)
      start node) : WhereItSays machine history node :=
  (run.invariant (Running machine history) starts.running fun _ _ _ running allowed moved =>
    running.step faithful indexed allowed.1 allowed.2 moved).whereItSays

def Node.fresh (machine : GroupMachine M) : Node M := ⟨.empty, machine.new, 0, 0, 0, none⟩

theorem starts_fresh (machine : GroupMachine M) (history : List Entry) :
    Starts machine history (.fresh machine) where
  bare := rfl
  holds :=
    { known := Nat.zero_le _
      entries := fun _ _ high => absurd high (Nat.not_lt_zero _)
      snapshot := .inl ⟨rfl, rfl⟩
      applied := fun _ is => by cases is
      ahead := le_refl _
      within := le_refl _ }
  opened := rfl
  position := rfl
  promised := rfl

end

/-- A machine that counts its commands, and writes the count in unary behind one byte. -/
def counter : GroupMachine Nat where
  new := 0
  apply := fun count _ _ => .ok (count + 1)
  snapshot := fun count => List.replicate (count + 1) 1
  install := fun state => if state = [] then .error "no state" else .ok (state.length - 1)
  snapshotForPeer := fun _ state => .ok state
  installFromPeer := fun _ data _ _ => if data = [] then .error "no state" else .ok (data.length - 1)

theorem faithful_counter : Faithful counter where
  restores := fun count _ => by simp [counter]
  restoresPeer := by
    intro holder state data count restored encoded
    rw [← Except.ok.inj encoded]
    exact restored
  adopts := fun _ _ _ _ _ installed => installed

def twoCommands : List Entry := [⟨⟨1, 1, 0⟩, .normal [7]⟩, ⟨⟨1, 1, 1⟩, .normal [8]⟩]

theorem indexed_twoCommands : Indexed twoCommands := by
  intro i entry found
  match i with
  | 0 => obtain rfl := Option.some.inj found; rfl
  | 1 => obtain rfl := Option.some.inj found; rfl
  | i + 2 => simp [twoCommands] at found

def twoLogged : OrderedMap Nat Entry := (Disk.empty.append twoCommands).log

theorem get?_twoLogged (i : Nat) : twoLogged.get? i = twoCommands[i]? := by
  match i with
  | 0 => rfl
  | 1 => rfl
  | i + 2 => rfl

/-- Two commands are applied, a snapshot lets the log behind it go, and the process dies. -/
theorem restarted_where_reported_two :
    ∃ node, node.disk.log.entries = [] ∧ node.machine = 2 ∧ WhereItSays counter twoCommands node := by
  have appended : Reach (step counter) (fun node event => Called counter twoCommands node event ∧
      Agreed counter node event) (.fresh counter) _ :=
    .step (.append twoCommands) .start ⟨fun _ _ low => absurd low (Nat.not_lt_zero _), trivial⟩ rfl
  have applied := Reach.step (Event.apply twoCommands) appended ⟨⟨rfl, fun i _ _ => get?_twoLogged i⟩, trivial⟩ rfl
  have built := Reach.step (Event.buildSnapshot true) applied ⟨trivial, .inl (by decide)⟩ rfl
  have purged := Reach.step (Event.purge ⟨1, 1, 1⟩) built ⟨Nat.lt_succ_self 1, trivial⟩ rfl
  have reopened := Reach.step Event.reopen purged ⟨trivial, trivial⟩ rfl
  exact ⟨_, rfl, rfl, restarted_where_reported faithful_counter indexed_twoCommands (starts_fresh _ _) reopened⟩

/-- A file from before the state record: two commands applied, no snapshot and no state. -/
def oldFile : Node Nat :=
  { disk := { Disk.empty with log := twoLogged, applied := some ⟨1, 1, 1⟩ }
    machine := 0, snapshotCount := 0, position := 0, commit := 2, promised := none }

theorem starts_oldFile : Starts counter twoCommands oldFile where
  bare := rfl
  holds :=
    { known := le_refl _
      entries := fun i _ _ => get?_twoLogged i
      snapshot := .inl ⟨rfl, rfl⟩
      applied := fun _ is => by obtain rfl := Option.some.inj is; rfl
      ahead := Nat.zero_le _
      within := le_refl _ }
  opened := rfl
  position := rfl
  promised := rfl

/-- A snapshot is built before the log is applied again. It takes the position from the file
and an empty machine, and the next restart claims two commands that were never applied. -/
theorem old_file_claims_unapplied : Faithful counter ∧ Indexed twoCommands ∧
    Starts counter twoCommands oldFile ∧ ∃ node, Reach (step counter) (Called counter twoCommands) oldFile node ∧
      ¬ WhereItSays counter twoCommands node := by
  have built : Reach (step counter) (Called counter twoCommands) oldFile _ :=
    .step (.buildSnapshot true) .start trivial rfl
  refine ⟨faithful_counter, indexed_twoCommands, starts_oldFile, _, Reach.step Event.reopen built trivial rfl, ?_⟩
  intro claimed
  obtain ⟨m, opened, reached⟩ := claimed.state
  have none : m = 0 := (Except.ok.inj opened).symm
  have two : m = 2 := (Except.ok.inj reached).symm
  omega

end TallyOwl.Raft
