import TallyOwl.Cluster.Topology
import TallyOwl.Lib.Runs
import TallyOwl.Store.Row

/-! The receipt of a `remote-one` tablet (`replicated.rs`, `groups.rs`). A commit is an
entry of the group's log. Its call waits until the leader's own replication state shows a
replica outside the write region at the applied index the call has read, and a call that is
answered as a duplicate does not wait. -/
namespace TallyOwl.RemoteCopy
open Lib Controller List

inductive LogEntry where
  | blank
  | membership
  | commit (key : Id × Id) (refusal : Option String)
  | other
  deriving DecidableEq

/-- The entry at this index stored the batch, or found it stored. -/
def CommitsAt (log : List LogEntry) (index : Nat) (key : Id × Id) : Prop :=
  log[index]? = some (.commit key none)

instance (log : List LogEntry) (index : Nat) (key : Id × Id) : Decidable (CommitsAt log index key) :=
  inferInstanceAs (Decidable (_ = _))

/-- What the entry at an index answers: the prior receipt of its batch makes it a duplicate. -/
def outcomeAt (log : List LogEntry) (index : Nat) : Option (Except String Bool) :=
  match log[index]? with
  | some (.commit key none) => some (.ok (decide (.commit key none ∈ log.take index)))
  | some (.commit _ (some reason)) => some (.error reason)
  | _ => none

inductive CallStage where
  | begun
  | proposed (index : Nat)
  | answered (index : Nat) (deduplicated : Bool)
  /-- In `await_remote_copy`, for the applied index it read. -/
  | waiting (index applied : Nat) (deduplicated : Bool)
  | returned (result : Except String Bool)
  deriving DecidableEq

/-- One `commit` call of a store. -/
structure Call where
  key : Id × Id
  stage : CallStage
  deriving DecidableEq

structure Metrics where
  lastApplied : Option Nat
  replication : Option (String → Option Nat)

/-- The replicas of one tablet, and the calls of one of its stores. -/
structure Group where
  log : List LogEntry
  persisted : String → Nat
  applied : Nat
  metrics : Metrics
  calls : List Call

def Group.start : Group := ⟨[], fun _ => 0, 0, ⟨none, none⟩, []⟩

structure ReplicatedStore where
  node : String
  members : List Member
  policy : ReceiptPolicy
  writeRegion : String
  timeoutSeconds : Nat

inductive Event where
  | commit (key : Id × Id)
  | propose (i : Nat) (refusal : Option String)
  | entry (e : LogEntry)
  | answer (i : Nat)
  | lost (i : Nat) (message : String)
  /-- The call looks at its policy and its outcome, and reads the applied index. -/
  | check (i : Nat)
  | poll (i : Nat)
  | timeout (i : Nat)
  | persist (node : String) (entries : Nat)
  | apply
  | reported
  | lead
  | follow
  | matched (node : String) (index : Nat)
  deriving DecidableEq

def Call.goes (c : Call) (stage : CallStage) : Call := { c with stage }

section
variable (store : ReplicatedStore)

/-- The members whose copy makes a `remote-one` receipt true. -/
def ReplicatedStore.remote (store : ReplicatedStore) : List String :=
  (store.members.filter fun m => m.region ≠ store.writeRegion).map Member.node

def ReplicatedStore.noReplica (store : ReplicatedStore) : String :=
  s!"This tablet's policy is `remote-one` and it has no replica outside `{store.writeRegion}`, so no write can satisfy it. Add a replica in another region or change the policy."

def ReplicatedStore.notCopied (store : ReplicatedStore) : String :=
  s!"The write committed locally and no replica outside `{store.writeRegion}` had it after {store.timeoutSeconds} seconds, so it is not acknowledged. Send it again; the batch ID makes a retry one logical commit."

/-- `applied_index`, from the metrics. -/
def Group.appliedIndex (s : Group) : Nat := s.metrics.lastApplied.getD 0

/-- Whether at least one of these nodes has persisted up to an index, as far as this node
knows. -/
def Group.replicatedTo (s : Group) (nodes : List String) (index : Nat) : Bool :=
  match s.metrics.replication with
  | none => false
  | some replication => nodes.any fun name =>
      if name = store.node then s.metrics.lastApplied.any (index ≤ ·)
      else (replication name).any (index ≤ ·)

/-- What `commit` does with the outcome of its proposal. -/
def Group.checked (s : Group) (index : Nat) (deduplicated : Bool) : CallStage :=
  if store.policy = .remoteOne ∧ deduplicated = false then
    if store.remote = [] then .returned (.error store.noReplica)
    else .waiting index s.appliedIndex deduplicated
  else .returned (.ok deduplicated)

def Group.callStep (s : Group) (i : Nat) (next : Call → Option CallStage) : Option Group := do
  let c ← s.calls[i]?
  let stage ← next c
  some { s with calls := s.calls.set i (c.goes stage) }

def step (s : Group) : Event → Option Group
  | .commit key => some { s with calls := s.calls ++ [⟨key, .begun⟩] }
  | .propose i refusal => do
      let c ← s.calls[i]?
      if c.stage = .begun then
        some { s with
          log := s.log ++ [.commit c.key refusal]
          calls := s.calls.set i (c.goes (.proposed s.log.length)) }
      else none
  | .entry e => some { s with log := s.log ++ [e] }
  | .answer i => s.callStep i fun c =>
      match c.stage with
      | .proposed index =>
          match outcomeAt s.log index with
          | some (.ok deduplicated) => some (.answered index deduplicated)
          | some (.error reason) => some (.returned (.error reason))
          | none => none
      | _ => none
  | .lost i message => s.callStep i fun c =>
      match c.stage with
      | .begun | .proposed _ => some (.returned (.error message))
      | _ => none
  | .check i => s.callStep i fun c =>
      match c.stage with
      | .answered index deduplicated => some (s.checked store index deduplicated)
      | _ => none
  | .poll i => s.callStep i fun c =>
      match c.stage with
      | .waiting _ applied deduplicated =>
          if s.replicatedTo store store.remote applied then some (.returned (.ok deduplicated)) else none
      | _ => none
  | .timeout i => s.callStep i fun c =>
      match c.stage with
      | .waiting _ _ _ => some (.returned (.error store.notCopied))
      | _ => none
  | .persist node entries =>
      if entries ≤ s.log.length then
        some { s with persisted := Function.update s.persisted node (max (s.persisted node) entries) }
      else none
  | .apply =>
      if s.applied < s.persisted store.node then some { s with applied := s.applied + 1 } else none
  | .reported =>
      some { s with metrics := { s.metrics with
        lastApplied := if s.applied = 0 then none else some (s.applied - 1) } }
  | .lead => some { s with metrics := { s.metrics with replication := some fun _ => none } }
  | .follow => some { s with metrics := { s.metrics with replication := none } }
  | .matched node index =>
      match s.metrics.replication with
      | some replication =>
          if index < s.persisted node then
            some { s with metrics := { s.metrics with
              replication := some (Function.update replication node (some index)) } }
          else none
      | none => none

/-- Some member outside the write region has the log up to an entry of the batch. -/
def HasRemoteCopy (s : Group) (key : Id × Id) : Prop :=
  ∃ m ∈ store.members, m.region ≠ store.writeRegion ∧
    ∃ index, CommitsAt s.log index key ∧ index < s.persisted m.node

def ReceiptsHold (s : Group) : Prop :=
  ∀ c ∈ s.calls, ∀ deduplicated, c.stage = .returned (.ok deduplicated) → HasRemoteCopy store s c.key

/-- A call of the batch was acknowledged, or what a call waits for is so for one of the
batch's entries. -/
def Settled (s : Group) (key : Id × Id) : Prop :=
  (∃ c ∈ s.calls, c.key = key ∧ ∃ deduplicated, c.stage = .returned (.ok deduplicated)) ∨
    ∃ index, CommitsAt s.log index key ∧ s.replicatedTo store store.remote index = true

instance (s : Group) (key : Id × Id) : Decidable (Settled store s key) :=
  decidable_of_iff ((∃ c ∈ s.calls, c.key = key ∧ ∃ deduplicated, c.stage = .returned (.ok deduplicated)) ∨
      ∃ index < s.log.length, CommitsAt s.log index key ∧ s.replicatedTo store store.remote index = true)
    (or_congr_right (exists_congr fun _ => and_iff_right_of_imp fun here =>
      (List.getElem?_eq_some_iff.mp here.1).1))

/-- A call that is answered as a duplicate is of a settled batch, and any other reads an
applied index that its own entry is not past. -/
def Call.Covered (s : Group) (c : Call) : Prop :=
  match c.stage with
  | .answered _ true => Settled store s c.key
  | .answered index false => index ≤ s.appliedIndex
  | _ => True

instance (s : Group) (c : Call) : Decidable (c.Covered store s) := by
  unfold Call.Covered
  split <;> infer_instance

def Covered (s : Group) : Event → Prop
  | .check i => ∀ c ∈ s.calls[i]?, c.Covered store s
  | _ => True

instance (s : Group) (e : Event) : Decidable (Covered store s e) := by
  unfold Covered
  split <;> infer_instance

def Call.Sound (s : Group) (c : Call) : Prop :=
  match c.stage with
  | .proposed index => ∃ refusal, s.log[index]? = some (.commit c.key refusal)
  | .answered index _ => CommitsAt s.log index c.key
  | .waiting index applied _ => CommitsAt s.log index c.key ∧ index ≤ applied
  | .returned (.ok _) => HasRemoteCopy store s c.key
  | _ => True

structure Sound (s : Group) : Prop where
  applied : s.applied ≤ s.persisted store.node
  shown : ∀ index ∈ s.metrics.lastApplied, index < s.persisted store.node
  matched : ∀ replication ∈ s.metrics.replication, ∀ node, ∀ index ∈ replication node,
    index < s.persisted node
  calls : ∀ c ∈ s.calls, c.Sound store s

end

section
variable {store : ReplicatedStore} {s t : Group}

structure Grows (s t : Group) : Prop where
  log : ∀ (index : Nat) (e : LogEntry), s.log[index]? = some e → t.log[index]? = some e
  persisted : ∀ node, s.persisted node ≤ t.persisted node

theorem Grows.of_same (log : t.log = s.log) (persisted : t.persisted = s.persisted) : Grows s t := by
  refine ⟨fun index e found => ?_, fun node => ?_⟩
  · rwa [log]
  · rw [persisted]

theorem HasRemoteCopy.mono {key : Id × Id} (copy : HasRemoteCopy store s key) (grows : Grows s t) :
    HasRemoteCopy store t key := by
  obtain ⟨m, inside, away, index, commits, has⟩ := copy
  exact ⟨m, inside, away, index, grows.log index _ commits, has.trans_le (grows.persisted m.node)⟩

theorem Call.Sound.mono {c : Call} (sound : c.Sound store s) (grows : Grows s t) : c.Sound store t := by
  cases stage : c.stage with
  | proposed index =>
    rw [Call.Sound, stage] at sound ⊢
    obtain ⟨refusal, found⟩ := sound
    exact ⟨refusal, grows.log _ _ found⟩
  | answered index deduplicated =>
    rw [Call.Sound, stage] at sound ⊢
    exact grows.log _ _ sound
  | waiting index applied deduplicated =>
    rw [Call.Sound, stage] at sound ⊢
    exact ⟨grows.log _ _ sound.1, sound.2⟩
  | returned result =>
    cases result with
    | ok deduplicated =>
      rw [Call.Sound, stage] at sound ⊢
      exact sound.mono grows
    | error message =>
      rw [Call.Sound, stage]
      trivial
  | begun =>
    rw [Call.Sound, stage]
    trivial

theorem Sound.replicatedTo (sound : Sound store s) {nodes : List String} {index : Nat}
    (yes : s.replicatedTo store nodes index = true) : ∃ node ∈ nodes, index < s.persisted node := by
  unfold Group.replicatedTo at yes
  split at yes
  · cases yes
  · rename_i replication leads
    obtain ⟨node, inside, has⟩ := any_eq_true.mp yes
    refine ⟨node, inside, ?_⟩
    split at has
    · rename_i own
      obtain ⟨j, shown, past⟩ := (Option.any_eq_true _ _).mp has
      have bound := sound.shown j shown
      have past := of_decide_eq_true past
      rw [own]
      omega
    · obtain ⟨j, known, past⟩ := (Option.any_eq_true _ _).mp has
      have bound := sound.matched replication leads node j known
      have past := of_decide_eq_true past
      omega

theorem Sound.hasRemoteCopy (sound : Sound store s) {key : Id × Id} {index applied : Nat}
    (commits : CommitsAt s.log index key) (reach : index ≤ applied)
    (yes : s.replicatedTo store store.remote applied = true) : HasRemoteCopy store s key := by
  obtain ⟨node, inside, has⟩ := sound.replicatedTo yes
  obtain ⟨m, mem, rfl⟩ := mem_map.mp inside
  obtain ⟨member, away⟩ := List.mem_filter.mp mem
  exact ⟨m, member, of_decide_eq_true away, index, commits, by omega⟩

theorem Sound.settled (sound : Sound store s) {key : Id × Id} (settled : Settled store s key) :
    HasRemoteCopy store s key := by
  rcases settled with ⟨c, inside, rfl, deduplicated, stage⟩ | ⟨index, commits, yes⟩
  · have holds := sound.calls c inside
    rw [Call.Sound, stage] at holds
    exact holds
  · exact sound.hasRemoteCopy commits (le_refl _) yes

theorem callStep_some {i : Nat} {next : Call → Option CallStage} (moved : s.callStep i next = some t) :
    ∃ c stage, s.calls[i]? = some c ∧ next c = some stage ∧ t = { s with calls := s.calls.set i (c.goes stage) } := by
  obtain ⟨c, there, more⟩ := Option.bind_eq_some_iff.mp moved
  obtain ⟨stage, goes, again⟩ := Option.bind_eq_some_iff.mp more
  exact ⟨c, stage, there, goes, (Option.some.inj again).symm⟩

theorem Sound.called (sound : Sound store s) {i : Nat} {next : Call → Option CallStage}
    (moved : s.callStep i next = some t)
    (goes : ∀ c stage, s.calls[i]? = some c → next c = some stage → (c.goes stage).Sound store s) : Sound store t := by
  obtain ⟨c, stage, there, moves, rfl⟩ := callStep_some moved
  have grows : Grows s { s with calls := s.calls.set i (c.goes stage) } := .of_same rfl rfl
  refine ⟨sound.applied, sound.shown, sound.matched, fun d inside => ?_⟩
  rcases mem_or_eq_of_mem_set inside with old | rfl
  · exact (sound.calls d old).mono grows
  · exact (goes c stage there moves).mono grows

theorem Sound.aside (sound : Sound store s) (grows : Grows s t) (calls : t.calls = s.calls)
    (applied : t.applied ≤ t.persisted store.node)
    (shown : ∀ index ∈ t.metrics.lastApplied, index < t.persisted store.node)
    (matched : ∀ replication ∈ t.metrics.replication, ∀ node, ∀ index ∈ replication node,
      index < t.persisted node) : Sound store t := by
  refine ⟨applied, shown, matched, fun c inside => ?_⟩
  rw [calls] at inside
  exact (sound.calls c inside).mono grows

theorem grows_append (s : Group) (e : LogEntry) (calls : List Call) :
    Grows s { s with log := s.log ++ [e], calls } := by
  refine ⟨fun index held found => ?_, fun _ => le_refl _⟩
  show (s.log ++ [e])[index]? = some held
  rw [getElem?_append_left (List.getElem?_eq_some_iff.mp found).1, found]

theorem Sound.checked (sound : Sound store s) {c : Call} {index : Nat} {deduplicated : Bool}
    (remote : store.policy = .remoteOne) (commits : CommitsAt s.log index c.key)
    (stage : c.stage = .answered index deduplicated) (covered : c.Covered store s) :
    (c.goes (s.checked store index deduplicated)).Sound store s := by
  rw [Call.Covered, stage] at covered
  cases deduplicated with
  | true =>
    simp only [Group.checked, remote, Bool.true_eq_false, and_false, if_false]
    exact sound.settled covered
  | false =>
    simp only [Group.checked, remote, and_self, if_true]
    split
    · trivial
    · exact ⟨commits, covered⟩

theorem Sound.step {e : Event} (sound : Sound store s) (remote : store.policy = .remoteOne)
    (covered : Covered store s e) (next : RemoteCopy.step store s e = some t) : Sound store t := by
  cases e with
  | commit key =>
    cases next
    refine ⟨sound.applied, sound.shown, sound.matched, fun c inside => ?_⟩
    rcases mem_append.mp inside with old | new
    · exact (sound.calls c old).mono (.of_same rfl rfl)
    · obtain rfl := mem_singleton.mp new
      trivial
  | propose i refusal =>
    obtain ⟨c, there, more⟩ := Option.bind_eq_some_iff.mp next
    split at more
    · cases more
      have grows := grows_append s (.commit c.key refusal) (s.calls.set i (c.goes (.proposed s.log.length)))
      refine ⟨sound.applied, sound.shown, sound.matched, fun d inside => ?_⟩
      rcases mem_or_eq_of_mem_set inside with old | rfl
      · exact (sound.calls d old).mono grows
      · exact ⟨refusal, getElem?_concat_length⟩
    · cases more
  | entry e =>
    cases next
    exact sound.aside (grows_append s e s.calls) rfl sound.applied sound.shown sound.matched
  | answer i =>
    refine sound.called next fun c stage there goes => ?_
    have holds := sound.calls c (mem_of_getElem? there)
    split at goes
    · rename_i index proposed
      rw [Call.Sound, proposed] at holds
      obtain ⟨refusal, found⟩ := holds
      cases refusal with
      | none =>
        simp only [outcomeAt, found, Option.some.injEq] at goes
        obtain rfl := goes
        exact found
      | some reason =>
        simp only [outcomeAt, found, Option.some.injEq] at goes
        obtain rfl := goes
        trivial
    · cases goes
  | lost i message =>
    refine sound.called next fun c stage there goes => ?_
    split at goes
    · cases goes
      trivial
    · cases goes
      trivial
    · cases goes
  | check i =>
    refine sound.called next fun c stage there goes => ?_
    have holds := sound.calls c (mem_of_getElem? there)
    split at goes
    · rename_i index deduplicated answered
      rw [Call.Sound, answered] at holds
      cases goes
      exact sound.checked remote holds answered (covered c there)
    · cases goes
  | poll i =>
    refine sound.called next fun c stage there goes => ?_
    have holds := sound.calls c (mem_of_getElem? there)
    split at goes
    · rename_i index applied deduplicated waits
      rw [Call.Sound, waits] at holds
      split at goes
      · rename_i yes
        cases goes
        exact sound.hasRemoteCopy holds.1 holds.2 yes
      · cases goes
    · cases goes
  | timeout i =>
    refine sound.called next fun c stage there goes => ?_
    split at goes
    · cases goes
      trivial
    · cases goes
  | persist node entries =>
    simp only [RemoteCopy.step] at next
    split at next
    · cases next
      have more : ∀ other, s.persisted other ≤
          Function.update s.persisted node (max (s.persisted node) entries) other := by
        intro other
        rw [Function.update_apply]
        split
        · rename_i same
          rw [same]
          exact le_max_left _ _
        · exact le_refl _
      exact sound.aside ⟨fun _ _ found => found, more⟩ rfl (sound.applied.trans (more _))
        (fun index inside => (sound.shown index inside).trans_le (more _))
        fun replication known other index inside =>
          (sound.matched replication known other index inside).trans_le (more _)
    · cases next
  | apply =>
    simp only [RemoteCopy.step] at next
    split at next
    · rename_i room
      cases next
      exact sound.aside (.of_same rfl rfl) rfl room sound.shown sound.matched
    · cases next
  | reported =>
    cases next
    refine sound.aside (.of_same rfl rfl) rfl sound.applied (fun index inside => ?_) sound.matched
    have bound := sound.applied
    simp only [Option.mem_def] at inside
    split at inside
    · cases inside
    · cases inside
      show s.applied - 1 < s.persisted store.node
      omega
  | lead =>
    cases next
    refine sound.aside (.of_same rfl rfl) rfl sound.applied sound.shown ?_
    rintro _ ⟨⟩ node index ⟨⟩
  | follow =>
    cases next
    refine sound.aside (.of_same rfl rfl) rfl sound.applied sound.shown ?_
    rintro _ ⟨⟩
  | matched node index =>
    simp only [RemoteCopy.step] at next
    split at next
    · rename_i replication known
      split at next
      · rename_i has
        cases next
        refine sound.aside (.of_same rfl rfl) rfl sound.applied sound.shown ?_
        rintro _ ⟨⟩ other j inside
        rw [Function.update_apply] at inside
        split at inside
        · rename_i same
          cases inside
          rwa [same]
        · exact sound.matched replication known other j inside
      · cases next
    · cases next

theorem Sound.start : Sound store .start where
  applied := le_refl _
  shown := by rintro _ ⟨⟩
  matched := by rintro _ ⟨⟩
  calls := by rintro _ ⟨⟩

/-- In every run whose duplicates are of settled batches, and whose other calls read an
applied index past their entry, a `remote-one` receipt means a remote copy. -/
theorem receipt_means_remote_copy (remote : store.policy = .remoteOne)
    (run : Reach (step store) (Covered store) .start t) : ReceiptsHold store t := by
  have sound : Sound store t := Reach.invariant (Sound store) Sound.start
    (fun _ _ _ before covered next => before.step remote covered next) run
  intro c inside deduplicated stage
  have holds := sound.calls c inside
  rw [Call.Sound, stage] at holds
  exact holds

end

/-- A tablet that writes at home, where this node is, and has one replica in the east. -/
def eastern : ReplicatedStore where
  node := "a"
  members := [.voter "a" "a:1", { Member.voter "b" "b:1" with region := "east" }]
  policy := .remoteOne
  writeRegion := "home"
  timeoutSeconds := 10

/-- One call up to its outcome, with the batch on the disk of this node. -/
def proposedAlone (i : Nat) : List Event :=
  [.commit (1, 1), .propose i none, .persist "a" (i + 2), .apply, .reported, .answer i, .check i]

/-- The first call waits for its copy, and the second is answered as a duplicate. -/
theorem receipt_means_remote_copy_twice :
    ∃ t, (t.calls.map Call.stage = [.returned (.ok false), .returned (.ok true)]) ∧ ReceiptsHold eastern t := by
  obtain ⟨t, run, stages⟩ := @Reach.of_exec_any _ _ (step eastern) (Covered eastern) _ .start
    ([.lead, .entry .membership, .persist "a" 1, .apply] ++ proposedAlone 0 ++
      [.persist "b" 2, .matched "b" 1, .poll 0] ++ proposedAlone 1)
    (fun t => t.calls.map Call.stage = [.returned (.ok false), .returned (.ok true)]) (by decide +kernel)
  exact ⟨t, of_decide_eq_true stages, receipt_means_remote_copy rfl run⟩

/-- The replica in the east stalls. The first call is refused, and the batch is sent again. -/
theorem retried_receipt_without_copy : ∃ t, Reach (step eastern) anyStep .start t ∧ eastern.policy = .remoteOne ∧
      t.calls.map Call.stage = [.returned (.error eastern.notCopied), .returned (.ok true)] ∧
      t.persisted "b" = 0 ∧ ¬ ReceiptsHold eastern t := by
  obtain ⟨t, run, found⟩ := @Reach.of_exec_any _ _ (step eastern) anyStep _ .start
    ([.lead, .entry .membership, .persist "a" 1, .apply] ++ proposedAlone 0 ++ [.timeout 0] ++
      proposedAlone 1)
    (fun t => t.calls.map Call.stage = [.returned (.error eastern.notCopied), .returned (.ok true)] &&
      t.persisted "b" = 0) (by decide +kernel)
  simp only [Bool.and_eq_true, decide_eq_true_eq] at found
  obtain ⟨stages, stalled⟩ := found
  refine ⟨t, run, rfl, stages, stalled, fun holds => ?_⟩
  obtain ⟨c, inside, stage⟩ := List.mem_map.mp
    (stages ▸ List.mem_cons_of_mem _ (List.mem_singleton_self _) : .returned (.ok true) ∈ t.calls.map Call.stage)
  obtain ⟨m, mem, away, index, -, has⟩ := holds c inside true stage
  simp only [eastern, List.mem_cons, List.not_mem_nil, or_false] at mem away
  rcases mem with rfl | rfl
  · exact away rfl
  · have none : index < t.persisted "b" := has
    omega

end TallyOwl.RemoteCopy
