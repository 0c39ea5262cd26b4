import TallyOwl.Cluster.RemoteCopy

/-! A read that names a write (`service.rs`, `raft/machine.rs`). The receipt of a commit
carries a number of the leader's store, which counts the batches this store took in; a
replica compares it with the index of the log entry it applied last. -/
namespace TallyOwl.ReadMark
open Lib List
open RemoteCopy (LogEntry)

/-- The receipt of a batch in one store. The entry is written down for the proofs only. -/
structure Receipt where
  key : Id × Id
  entry : Nat
  commitWatermark : Nat
  deriving DecidableEq

structure Replica where
  applied : Nat
  watermark : Nat
  receipts : List Receipt
  copiedThrough : Nat
  lastApplied : Option Nat
  deriving DecidableEq

def Replica.new : Replica := ⟨0, 0, [], 0, none⟩

structure Tablet where
  log : List (String × LogEntry)
  replicas : String → Replica
  answers : List Receipt

def Tablet.start : Tablet := ⟨[], fun _ => .new, []⟩

inductive Event where
  | entry (proposer : String) (e : LogEntry)
  | apply (node : String)
  | applyHeld (node : String)
  /-- A replica takes a snapshot at an index and copies segments from a peer at a position. -/
  | install (node : String) (index position : Nat)
  | reported (node : String)
  deriving DecidableEq

def Replica.receipt (r : Replica) (key : Id × Id) : Option Receipt := r.receipts.find? (·.key = key)

/-- `commit` of the replica's store, for its next entry. -/
def Replica.commit (r : Replica) (key : Id × Id) : Replica × Receipt :=
  match r.receipt key with
  | some prior => (r, prior)
  | none =>
      let receipt : Receipt := ⟨key, r.applied, r.watermark + 1⟩
      ({ r with watermark := r.watermark + 1, receipts := r.receipts ++ [receipt] }, receipt)

def Replica.next (r : Replica) : Replica := { r with applied := r.applied + 1 }

def Tablet.put (s : Tablet) (node : String) (r : Replica) : Tablet :=
  { s with replicas := Function.update s.replicas node r }

def step (s : Tablet) : Event → Option Tablet
  | .entry proposer e => some { s with log := s.log ++ [(proposer, e)] }
  | .apply node => do
      let r := s.replicas node
      let entry ← s.log[r.applied]?
      match entry with
      | (proposer, .commit key none) =>
          let done := r.commit key
          let t := s.put node done.1.next
          some { t with answers := if proposer = node then s.answers ++ [done.2] else s.answers }
      | _ => some (s.put node r.next)
  | .applyHeld node => do
      let r := s.replicas node
      let entry ← s.log[r.applied]?
      match entry with
      | (_, .commit _ none) => if r.applied ≤ r.copiedThrough then some (s.put node r.next) else none
      | _ => none
  | .install node index position =>
      let r := s.replicas node
      if index < s.log.length ∧ position < s.log.length ∧ r.applied ≤ index then
        some (s.put node { r with applied := index + 1, copiedThrough := max r.copiedThrough position })
      else none
  | .reported node =>
      let r := s.replicas node
      some (s.put node { r with lastApplied := if r.applied = 0 then none else some (r.applied - 1) })

/-- `applied_index`, from the metrics. -/
def Replica.appliedIndex (r : Replica) : Nat := r.lastApplied.getD 0

/-- `partial_aggregate` goes on to read the rows. -/
def Replica.admits (r : Replica) (requireWatermark : Option Nat) : Bool :=
  (requireWatermark.filter (0 < ·)).all (· ≤ r.appliedIndex)

/-- A replica that admits a read of a receipt's number has applied the receipt's entry. -/
def ReadsSee (s : Tablet) : Prop :=
  ∀ receipt ∈ s.answers, ∀ node, (s.replicas node).admits (some receipt.commitWatermark) = true →
    receipt.entry < (s.replicas node).applied

/-- The number that the proposer of a commit is told is not below the entry's index. -/
def Level (s : Tablet) : Event → Prop
  | .apply node =>
      match s.log[(s.replicas node).applied]? with
      | some (proposer, .commit key none) => proposer = node →
          match (s.replicas node).receipt key with
          | some prior => prior.entry ≤ prior.commitWatermark
          | none => (s.replicas node).applied ≤ (s.replicas node).watermark + 1
      | _ => True
  | _ => True

instance (s : Tablet) (e : Event) : Decidable (Level s e) := by
  unfold Level
  repeat' split
  all_goals infer_instance

/-- What holds of every replica and of every number that was told. -/
structure Known (s : Tablet) : Prop where
  shown : ∀ node, ∀ index ∈ (s.replicas node).lastApplied, index < (s.replicas node).applied
  numbered : ∀ node, ∀ receipt ∈ (s.replicas node).receipts, 0 < receipt.commitWatermark
  level : ∀ receipt ∈ s.answers, 0 < receipt.commitWatermark ∧ receipt.entry ≤ receipt.commitWatermark

section
variable {s t : Tablet} {node : String} {r : Replica}

theorem known_start : Known .start where
  shown := by rintro node _ ⟨⟩
  numbered := by rintro node _ ⟨⟩
  level := by rintro _ ⟨⟩

theorem Known.put (known : Known s) (shown : ∀ index ∈ r.lastApplied, index < r.applied)
    (numbered : ∀ receipt ∈ r.receipts, 0 < receipt.commitWatermark) : Known (s.put node r) := by
  have cases : ∀ other, (s.put node r).replicas other = r ∨ (s.put node r).replicas other = s.replicas other := by
    intro other
    show Function.update s.replicas node r other = r ∨ Function.update s.replicas node r other = _
    rw [Function.update_apply]
    split
    · exact .inl rfl
    · exact .inr rfl
  refine ⟨fun other => ?_, fun other => ?_, known.level⟩
  · rcases cases other with mine | old
    · rwa [mine]
    · rw [old]
      exact known.shown other
  · rcases cases other with mine | old
    · rwa [mine]
    · rw [old]
      exact known.numbered other

theorem Known.next (known : Known s) : ∀ index ∈ (s.replicas node).next.lastApplied,
    index < (s.replicas node).next.applied := by
  intro index inside
  have bound := known.shown node index inside
  show index < (s.replicas node).applied + 1
  omega

theorem Known.commit (known : Known s) (node : String) (key : Id × Id) :
    (∀ index ∈ ((s.replicas node).commit key).1.next.lastApplied,
      index < ((s.replicas node).commit key).1.next.applied) ∧
    (∀ receipt ∈ ((s.replicas node).commit key).1.receipts, 0 < receipt.commitWatermark) ∧
      0 < ((s.replicas node).commit key).2.commitWatermark := by
  unfold Replica.commit
  split
  · rename_i prior found
    exact ⟨known.next, known.numbered node, known.numbered node prior (mem_of_find?_eq_some found)⟩
  · refine ⟨known.next, fun receipt inside => ?_, Nat.succ_pos _⟩
    rcases mem_append.mp inside with old | new
    · exact known.numbered node receipt old
    · obtain rfl := mem_singleton.mp new
      exact Nat.succ_pos _

theorem Known.step {e : Event} (known : Known s) (level : Level s e) (next : ReadMark.step s e = some t) : Known t := by
  cases e with
  | entry proposer e =>
    cases next
    exact ⟨known.shown, known.numbered, known.level⟩
  | apply node =>
    obtain ⟨⟨proposer, e⟩, found, more⟩ := Option.bind_eq_some_iff.mp next
    have aside : ∀ u, some (s.put node (s.replicas node).next) = some u → Known u := by
      rintro u ⟨⟩
      exact known.put known.next (known.numbered node)
    cases e with
    | commit key refusal =>
      cases refusal with
      | some reason => exact aside t more
      | none =>
        cases more
        obtain ⟨shown, numbered, positive⟩ := known.commit node key
        have put : Known (s.put node ((s.replicas node).commit key).1.next) := known.put shown numbered
        obtain ⟨shown, numbered, -⟩ := put
        refine ⟨shown, numbered, fun receipt inside => ?_⟩
        by_cases own : proposer = node
        · simp only [own, if_true] at inside
          rcases mem_append.mp inside with old | new
          · exact known.level receipt old
          · obtain rfl := mem_singleton.mp new
            refine ⟨positive, ?_⟩
            simp only [Level, found] at level
            have high := level own
            unfold Replica.commit
            split <;> rename_i prior <;> rw [prior] at high <;> exact high
        · simp only [own, if_false] at inside
          exact known.level receipt inside
    | blank => exact aside t more
    | membership => exact aside t more
    | other => exact aside t more
  | applyHeld node =>
    obtain ⟨⟨proposer, e⟩, found, more⟩ := Option.bind_eq_some_iff.mp next
    split at more
    · split at more
      · cases more
        exact known.put known.next (known.numbered node)
      · cases more
    · cases more
  | install node index position =>
    simp only [ReadMark.step] at next
    split at next
    · rename_i inside
      cases next
      refine known.put (fun shown mem => ?_) (known.numbered node)
      have bound := known.shown node shown mem
      show shown < index + 1
      omega
    · cases next
  | reported node =>
    cases next
    refine known.put (fun index inside => ?_) (known.numbered node)
    simp only [Option.mem_def] at inside
    split at inside
    · cases inside
    · cases inside
      show (s.replicas node).applied - 1 < (s.replicas node).applied
      omega

theorem Replica.admits_iff {required : Nat} : r.admits (some required) = true ↔ required ≤ r.appliedIndex := by
  by_cases positive : 0 < required
  · simp [Replica.admits, positive]
  · obtain rfl : required = 0 := by omega
    simp [Replica.admits]

/-- In every run in which no proposer is told a number below its entry's index, a replica
that admits a read of the number has applied the entry. -/
theorem watermark_read_sees_write (run : Reach step Level .start t) : ReadsSee t := by
  have known : Known t := Reach.invariant Known known_start
    (fun _ _ _ before level next => before.step level next) run
  intro receipt told node admits
  obtain ⟨positive, level⟩ := known.level receipt told
  rw [Replica.admits_iff, Replica.appliedIndex] at admits
  cases last : (t.replicas node).lastApplied with
  | none =>
    rw [last, Option.getD_none] at admits
    omega
  | some index =>
    have bound := known.shown node index last
    rw [last, Option.getD_some] at admits
    omega

end

/-- The log starts with the voters, and every other entry is a batch. -/
theorem watermark_read_sees_write_level :
    ∃ t, (t.answers.map Receipt.commitWatermark = [1, 2]) ∧ (t.replicas "b").applied = 2 ∧ ReadsSee t := by
  obtain ⟨t, run, found⟩ := @Reach.of_exec_any _ _ step Level _ .start
    [.entry "a" .membership, .apply "a", .entry "a" (.commit (1, 1) none), .apply "a",
      .entry "a" (.commit (1, 2) none), .apply "a", .apply "b", .apply "b", .reported "b"]
    (fun t => t.answers.map Receipt.commitWatermark = [1, 2] && (t.replicas "b").applied = 2)
    (by decide +kernel)
  obtain ⟨told, applied⟩ := Bool.and_eq_true_iff.mp found
  exact ⟨t, of_decide_eq_true told, of_decide_eq_true applied, watermark_read_sees_write run⟩

/-- A leader was elected before the first batch, which is the third entry and gets the number
one. A replica that applied the two entries before it answers a read of it. -/
theorem elected_leader_number_is_low :
    ∃ t, Reach step anyStep .start t ∧ t.answers = [⟨(1, 1), 2, 1⟩] ∧ (t.replicas "b").applied = 2 ∧ ¬ ReadsSee t := by
  obtain ⟨t, run, found⟩ := @Reach.of_exec_any _ _ step anyStep _ .start
    [.entry "a" .membership, .entry "a" .blank, .entry "a" (.commit (1, 1) none), .apply "a", .apply "a",
      .apply "a", .apply "b", .apply "b", .reported "b"]
    (fun t => t.answers = [⟨(1, 1), 2, 1⟩] && ((t.replicas "b").applied = 2 &&
      (t.replicas "b").lastApplied = some 1)) (by decide +kernel)
  simp only [Bool.and_eq_true, decide_eq_true_eq] at found
  obtain ⟨told, applied, shown⟩ := found
  refine ⟨t, run, told, applied, fun sees => ?_⟩
  have admits : (t.replicas "b").admits (some 1) = true := by
    rw [Replica.admits_iff, Replica.appliedIndex, shown]
    exact le_refl _
  have reached : 2 < (t.replicas "b").applied :=
    sees ⟨(1, 1), 2, 1⟩ (by rw [told]; exact List.mem_singleton_self _) "b" admits
  omega

end TallyOwl.ReadMark
