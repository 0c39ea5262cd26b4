import TallyOwl.Cluster.Restart

/-! A snapshot that is built while entries keep applying. The position and the state are read
in one transaction, the membership in a later one, and what a peer is sent is encoded from
the machine as it is then. -/
open List

namespace TallyOwl.Raft
open Lib

inductive Stage where
  | idle
  | paired (applied : Option LogId) (state : Option Bytes)
  | prepared (applied : Option LogId) (state : Option Bytes)
  | placed (applied : Option LogId) (state : Option Bytes) (membership : StoredMembership)
  | encoded (applied : Option LogId) (membership : StoredMembership) (data : Bytes)

structure Group (M : Type*) where
  disk : Disk
  machine : M
  snapshotCount : Nat
  stage : Stage
  history : List Entry

namespace Group

inductive Event where
  | apply (entries : List Entry)
  | readPair
  | prepare (worked : Bool)
  | readMembership
  | encode
  | write

section
variable {M : Type*} (machine : GroupMachine M)

/-- The steps of a build in their order, and batches between any two of them. A preparation
or an encoding that fails ends the build with the previous snapshot. -/
def step (group : Group M) : Event → Option (Group M)
  | .apply entries =>
      match takeAll machine group.machine entries with
      | .error _ => none
      | .ok m => some { group with
          disk := group.disk.apply machine m entries
          machine := m
          history := group.history ++ entries }
  | .readPair =>
      match group.stage with
      | .idle => some { group with stage := .paired group.disk.appliedPair.1 group.disk.appliedPair.2 }
      | _ => none
  | .prepare worked =>
      match group.stage with
      | .paired applied state => some { group with stage := if worked then .prepared applied state else .idle }
      | _ => none
  | .readMembership =>
      match group.stage with
      | .prepared applied state =>
          some { group with stage := .placed applied state (group.disk.membership.getD .default) }
      | _ => none
  | .encode =>
      match group.stage with
      | .placed applied state membership =>
          match machine.snapshotForPeer group.machine (state.getD (machine.snapshot group.machine)) with
          | .error _ => some { group with stage := .idle }
          | .ok data => some { group with stage := .encoded applied membership data }
      | _ => none
  | .write =>
      match group.stage with
      | .encoded applied membership data => some { group with
          disk := group.disk.storeSnapshot (snapshotOf (group.snapshotCount + 1) applied membership) data
          snapshotCount := group.snapshotCount + 1
          stage := .idle }
      | _ => none

def sent (m : M) (state : Option Bytes) : Except String Bytes :=
  machine.snapshotForPeer m (state.getD (machine.snapshot m))

/-- The position, the membership and the state of one applied prefix. -/
def Point (history : List Entry) (applied : Option LogId) (membership : StoredMembership) (m : M) : Prop :=
  ∃ before, before <+: history ∧ takeAll machine machine.new before = .ok m ∧
    applied = positionAfter none before ∧ membership = (membershipAfter none before).getD .default

/-- A snapshot describes one point of the log: what the machine sent of its own state there. -/
def OnePoint (history : List Entry) (snapshot : SnapshotMeta) (data : Bytes) : Prop :=
  ∃ m, Point machine history snapshot.lastLogId snapshot.lastMembership m ∧ sent machine m none = .ok data

/-- The batches a build stands: none changes the membership before it is read, and none
changes what a peer is sent for the state before that is encoded. -/
def Stands (group : Group M) : Event → Prop
  | .apply entries =>
      match group.stage with
      | .idle | .encoded _ _ _ => True
      | .paired _ state | .prepared _ state =>
          (∀ entry ∈ entries, ∀ membership, entry.payload ≠ .membership membership) ∧
            ∀ m, takeAll machine group.machine entries = .ok m →
              sent machine m state = sent machine group.machine state
      | .placed _ state _ => ∀ m, takeAll machine group.machine entries = .ok m →
          sent machine m state = sent machine group.machine state
  | _ => True

structure Level (group : Group M) : Prop where
  state : takeAll machine machine.new group.history = .ok group.machine
  position : group.disk.applied = positionAfter none group.history
  membership : group.disk.membership = membershipAfter none group.history
  record : ∀ state, group.disk.machineState = some state → state = machine.snapshot group.machine

def Stored (group : Group M) : Prop :=
  ∀ snapshot data, group.disk.snapshotMeta = some snapshot → group.disk.snapshotData = some data →
    OnePoint machine group.history snapshot data

def Read (group : Group M) : Prop :=
  match group.stage with
  | .idle => True
  | .paired applied state | .prepared applied state =>
      ∃ m, Point machine group.history applied (group.disk.membership.getD .default) m ∧
        sent machine group.machine state = sent machine m none
  | .placed applied state membership =>
      ∃ m, Point machine group.history applied membership m ∧ sent machine group.machine state = sent machine m none
  | .encoded applied membership data =>
      ∃ m, Point machine group.history applied membership m ∧ sent machine m none = .ok data

end

section
variable {M : Type*} {machine : GroupMachine M} {group : Group M}

variable {m : M}

theorem Point.longer {history entries : List Entry} {applied : Option LogId} {membership : StoredMembership}
    (point : Point machine history applied membership m) : Point machine (history ++ entries) applied membership m := by
  obtain ⟨before, within, rest⟩ := point
  exact ⟨before, within.trans (prefix_append _ _), rest⟩

theorem membershipAfter_append {stored : Option StoredMembership} {first second : List Entry} :
    membershipAfter stored (first ++ second) = membershipAfter (membershipAfter stored first) second :=
  foldl_append

variable {entries : List Entry}

theorem membershipAfter_of_none {stored : Option StoredMembership}
    (other : ∀ entry ∈ entries, ∀ membership, entry.payload ≠ .membership membership) :
    membershipAfter stored entries = stored := by
  induction entries with
  | nil => rfl
  | cons entry rest ih =>
    have here := other entry mem_cons_self
    have behind := ih fun entry inside => other entry (mem_cons_of_mem _ inside)
    cases is : entry.payload with
    | blank => simpa [membershipAfter, is] using behind
    | normal payload => simpa [membershipAfter, is] using behind
    | membership membership => exact absurd is (here membership)

theorem Level.apply (level : Level machine group) (taken : takeAll machine group.machine entries = .ok m) :
    Level machine { group with
      disk := group.disk.apply machine m entries, machine := m, history := group.history ++ entries } := by
  have reached : takeAll machine machine.new (group.history ++ entries) = .ok m := by
    rw [takeAll_append, level.state]
    exact taken
  by_cases empty : entries = []
  · subst empty
    have same : m = group.machine := by simpa [takeAll, pure, Except.pure, eq_comm] using taken
    subst same
    simp only [Disk.apply, if_true, append_nil]
    exact level
  refine ⟨reached, ?_, ?_, ?_⟩
  all_goals simp only [Disk.apply, if_neg empty, Disk.machineState]
  · rw [level.position, positionAfter, positionAfter, positionAfter, foldl_append]
  · rw [level.membership, membershipAfter_append]
  · intro state stored
    exact (Option.some.inj (Option.filter_eq_some_iff.mp stored).1).symm

theorem Level.point (level : Level machine group) :
    Point machine group.history group.disk.applied (group.disk.membership.getD .default) group.machine :=
  ⟨group.history, prefix_refl _, level.state, level.position, by rw [level.membership]⟩

theorem Level.sent (level : Level machine group) :
    sent machine group.machine group.disk.machineState = Group.sent machine group.machine none := by
  cases stored : group.disk.machineState with
  | none => rfl
  | some state =>
    rw [level.record state stored]
    rfl

theorem Read.apply (read : Read machine group)
    (taken : takeAll machine group.machine entries = .ok m) (stands : Stands machine group (.apply entries)) :
    Read machine { group with
      disk := group.disk.apply machine m entries, machine := m, history := group.history ++ entries } := by
  have unchanged : (∀ entry ∈ entries, ∀ membership, entry.payload ≠ .membership membership) →
      (group.disk.apply machine m entries).membership = group.disk.membership := by
    intro other
    simp only [Disk.apply]
    split
    · rfl
    · exact membershipAfter_of_none other
  cases stage : group.stage with
  | idle => simp [Read]
  | paired applied state =>
    simp only [Read, Stands, stage] at read stands ⊢
    obtain ⟨other, same⟩ := stands
    obtain ⟨m', point, equal⟩ := read
    rw [unchanged other, same m taken]
    exact ⟨m', point.longer, equal⟩
  | prepared applied state =>
    simp only [Read, Stands, stage] at read stands ⊢
    obtain ⟨other, same⟩ := stands
    obtain ⟨m', point, equal⟩ := read
    rw [unchanged other, same m taken]
    exact ⟨m', point.longer, equal⟩
  | placed applied state membership =>
    simp only [Read, Stands, stage] at read stands ⊢
    obtain ⟨m', point, equal⟩ := read
    rw [stands m taken]
    exact ⟨m', point.longer, equal⟩
  | encoded applied membership data =>
    simp only [Read, stage] at read ⊢
    obtain ⟨m', point, equal⟩ := read
    exact ⟨m', point.longer, equal⟩

theorem Stored.apply (stored : Stored machine group) : Stored machine { group with
      disk := group.disk.apply machine m entries, machine := m, history := group.history ++ entries } := by
  intro snapshot data someMeta someData
  have same : (group.disk.apply machine m entries).snapshotMeta = group.disk.snapshotMeta ∧
      (group.disk.apply machine m entries).snapshotData = group.disk.snapshotData := by
    simp only [Disk.apply]
    split <;> exact ⟨rfl, rfl⟩
  obtain ⟨m', point, equal⟩ := stored snapshot data (same.1 ▸ someMeta) (same.2 ▸ someData)
  exact ⟨m', point.longer, equal⟩

/-- A group whose file is level, with what its build read and what it stored each of one point. -/
structure Sound (machine : GroupMachine M) (group : Group M) : Prop where
  level : Level machine group
  read : Read machine group
  stored : Stored machine group

theorem Sound.staged (sound : Sound machine group) {stage : Stage} (read : Read machine { group with stage }) :
    Sound machine { group with stage } :=
  ⟨⟨sound.level.state, sound.level.position, sound.level.membership, sound.level.record⟩, read, sound.stored⟩

theorem Sound.step (sound : Sound machine group) {event : Event} {next : Group M}
    (stands : Stands machine group event) (moved : step machine group event = some next) : Sound machine next := by
  have read := sound.read
  cases event with
  | apply entries =>
    simp only [Group.step] at moved
    split at moved
    · cases moved
    · rename_i m taken
      cases moved
      exact ⟨sound.level.apply taken, read.apply taken stands, sound.stored.apply⟩
  | readPair =>
    simp only [Group.step] at moved
    split at moved
    · cases moved
      exact sound.staged ⟨group.machine, sound.level.point, sound.level.sent⟩
    · cases moved
  | prepare worked =>
    simp only [Group.step] at moved
    split at moved
    · rename_i applied state stage
      cases moved
      refine sound.staged ?_
      simp only [Read, stage] at read
      cases worked with
      | false => trivial
      | true => exact read
    · cases moved
  | readMembership =>
    simp only [Group.step] at moved
    split at moved
    · rename_i applied state stage
      cases moved
      simp only [Read, stage] at read
      exact sound.staged read
    · cases moved
  | encode =>
    simp only [Group.step] at moved
    split at moved
    · rename_i applied state membership stage
      simp only [Read, stage] at read
      obtain ⟨m, point, equal⟩ := read
      split at moved
      · cases moved
        exact sound.staged trivial
      · rename_i data encoded
        cases moved
        exact sound.staged ⟨m, point, equal.symm.trans encoded⟩
    · cases moved
  | write =>
    simp only [Group.step] at moved
    split at moved
    · rename_i applied membership data stage
      cases moved
      simp only [Read, stage] at read
      refine ⟨⟨sound.level.state, sound.level.position, sound.level.membership, sound.level.record⟩,
        trivial, ?_⟩
      intro snapshot bytes someMeta someData
      cases someMeta
      cases someData
      exact read
    · cases moved

/-- In every run of a build's steps and of batches that the build stands, from a group whose
file is level and that builds nothing, a stored snapshot describes one point of the log. -/
theorem snapshot_describes_one_point {start : Group M} (idle : start.stage = .idle)
    (level : Level machine start) (stored : Stored machine start)
    (run : Reach (Group.step machine) (Stands machine) start group) : Stored machine group := by
  have first : Sound machine start := ⟨level, by simp [Read, idle], stored⟩
  exact (run.invariant (Sound machine) first fun _ _ _ sound stands moved => sound.step stands moved).stored

def fresh (machine : GroupMachine M) : Group M := ⟨.empty, machine.new, 0, .idle, []⟩

theorem level_fresh (machine : GroupMachine M) : Level machine (fresh machine) :=
  ⟨rfl, rfl, rfl, fun _ stored => by cases stored⟩

theorem stored_fresh (machine : GroupMachine M) : Stored machine (fresh machine) :=
  fun _ _ someMeta => by cases someMeta

end

def voters (ids : List Nat) : Membership := ⟨[ids], ids.map fun id => (id, s!"node-{id}")⟩

def grows : List Entry :=
  [⟨⟨1, 1, 0⟩, .membership (voters [1])⟩, ⟨⟨1, 1, 1⟩, .normal [7]⟩, ⟨⟨1, 1, 2⟩, .membership (voters [1, 2])⟩]

/-- A command is applied while a snapshot is built, and the membership changes behind its
read. -/
theorem snapshot_describes_one_point_grows : ∃ group, group.history = grows ∧
    group.disk.snapshotMeta = some (snapshotOf 1 (some ⟨1, 1, 0⟩) ⟨some ⟨1, 1, 0⟩, voters [1]⟩) ∧
    Stored counter group := by
  have applied : Reach (Group.step counter) (Stands counter) (fresh counter) _ :=
    .step (.apply (grows.take 1)) .start trivial rfl
  have paired := Reach.step Event.readPair applied trivial rfl
  have command := Reach.step (Event.apply ((grows.drop 1).take 1)) paired
    ⟨by simp [grows], fun _ _ => rfl⟩ rfl
  have prepared := Reach.step (Event.prepare true) command trivial rfl
  have placed := Reach.step Event.readMembership prepared trivial rfl
  have member := Reach.step (Event.apply (grows.drop 2)) placed (fun _ _ => rfl) rfl
  have encoded := Reach.step Event.encode member trivial rfl
  have written := Reach.step Event.write encoded trivial rfl
  exact ⟨_, rfl, rfl, snapshot_describes_one_point rfl (level_fresh _) (stored_fresh _) written⟩

/-- A membership that is applied between the two reads stands in the snapshot of the position
before it. -/
theorem snapshot_takes_later_membership : ∃ group, Reach (Group.step counter) anyStep (fresh counter) group ∧
    ¬ Stored counter group := by
  have applied : Reach (Group.step counter) anyStep (fresh counter) _ :=
    .step (.apply (grows.take 2)) .start trivial rfl
  have paired := Reach.step Event.readPair applied trivial rfl
  have member := Reach.step (Event.apply (grows.drop 2)) paired trivial rfl
  have prepared := Reach.step (Event.prepare true) member trivial rfl
  have placed := Reach.step Event.readMembership prepared trivial rfl
  have encoded := Reach.step Event.encode placed trivial rfl
  refine ⟨_, Reach.step Event.write encoded trivial rfl, ?_⟩
  intro stored
  obtain ⟨m, ⟨before, within, -, position, membership⟩, -⟩ := stored _ _ rfl rfl
  have within : before <+: grows := within
  rw [List.prefix_iff_eq_take.mp within] at position membership
  generalize before.length = n at position membership
  match n with
  | 0 => cases position
  | 1 => cases position
  | 2 => cases membership
  | n + 3 =>
    have whole : grows.take (n + 3) = grows := List.take_of_length_le (Nat.le_add_left 3 n)
    rw [whole] at position
    cases position

end Group
end TallyOwl.Raft
