import TallyOwl.Store.Segmented.Frame

/-! Commit watermarks over whole runs. A number is handed out in memory, its receipt
may land late or never, and a restart goes on from the pair the catalog holds. -/
namespace TallyOwl.Segmented
open Lib Format Locate RowCodec List OrderedMap

/-- The watermark a commit was handed and has not put into a receipt. -/
def CommitStage.number : CommitStage → Option Nat
  | .numbered _ w | .appending _ w _ | .logged _ w _ => some w
  | _ => none

def Catalog.Stores (c : Catalog) (w : Nat) : Prop :=
  ∃ x ∈ c.receipts.entries, x.2.commitWatermark = w

structure Numbered (s : State) : Prop where
  below : ∀ x ∈ s.catalog.receipts.entries, x.2.commitWatermark ≤ s.catalog.watermark.1 ∧
    x.2.logPosition ≤ s.catalog.watermark.2
  distinct : ∀ x ∈ s.catalog.receipts.entries, ∀ y ∈ s.catalog.receipts.entries,
    x.2.commitWatermark = y.2.commitWatermark → x = y
  ahead : ∀ m, s.up = some m → s.catalog.watermark.1 ≤ m.watermark
  handed : ∀ m, s.up = some m → ∀ (i : Nat) (c : Commit) (w : Nat), s.commits[i]? = some c →
    c.stage.number = some w → w ≤ m.watermark ∧ ¬ Catalog.Stores s.catalog w
  apart : ∀ (i j : Nat) (c d : Commit) (w : Nat), s.commits[i]? = some c → s.commits[j]? = some d →
    c.stage.number = some w → d.stage.number = some w → i = j
  idle : s.up = none → ∀ (i : Nat) (c : Commit), s.commits[i]? = some c → c.stage.number = none

theorem Numbered.empty : Numbered .empty :=
  ⟨by simp [State.empty, Catalog.empty], by simp [State.empty, Catalog.empty],
    by simp [State.empty], by simp [State.empty], by simp [State.empty], by simp [State.empty]⟩

theorem Commit.Seals.number {Ends : Except StoreError (Option Id) → Prop} {c d : Commit}
    (seals : c.Seals Ends d) {w : Nat} (held : d.stage.number = some w) : c.stage.number = some w := by
  cases seals with
  | same => exact held
  | starts outcome due => cases held
  | ends outcome result sealing allowed =>
    unfold Commit.sealed at held
    split at held
    · cases held
    · cases held
    · cases held
    · exact held

theorem Numbered.kept {s t : State} (numbered : Numbered s) (receipts : t.catalog.receipts = s.catalog.receipts)
    (pair : t.catalog.watermark = s.catalog.watermark)
    (watermark : t.up.map Memory.watermark = s.up.map Memory.watermark)
    (commits : ∀ (i : Nat) (d : Commit) (w : Nat), t.commits[i]? = some d →
      d.stage.number = some w → ∃ c : Commit, s.commits[i]? = some c ∧ c.stage.number = some w) : Numbered t := by
  have running : ∀ m, t.up = some m → ∃ m', s.up = some m' ∧ m'.watermark = m.watermark := by
    intro m up
    rw [up, Option.map_some] at watermark
    obtain ⟨m', here, same⟩ := Option.map_eq_some_iff.mp watermark.symm
    exact ⟨m', here, same⟩
  refine ⟨by rw [receipts, pair]; exact numbered.below, by rw [receipts]; exact numbered.distinct,
    ?_, ?_, ?_, ?_⟩
  · intro m up
    obtain ⟨m', here, same⟩ := running m up
    rw [pair, ← same]
    exact numbered.ahead m' here
  · intro m up i d w found held
    obtain ⟨m', here, same⟩ := running m up
    obtain ⟨c, before, number⟩ := commits i d w found held
    have := numbered.handed m' here i c w before number
    rwa [Catalog.Stores, receipts, ← same]
  · intro i j c d w first second atFirst atSecond
    obtain ⟨c', before, number⟩ := commits i c w first atFirst
    obtain ⟨d', before', number'⟩ := commits j d w second atSecond
    exact numbered.apart i j c' d' w before before' number number'
  · intro down i d found
    have off : s.up = none := by
      rw [down] at watermark
      simpa using watermark.symm
    cases held : d.stage.number with
    | none => rfl
    | some w =>
      obtain ⟨c, before, number⟩ := commits i d w found held
      rw [numbered.idle off i c before] at number
      cases number

section
variable {node : Node} {s t : State}

theorem Numbered.call {i : Nat} {e : CallEvent} (numbered : Numbered s)
    (next : step node s (.call i e) = some t) : Numbered t := by
  obtain ⟨m, c, t', d, up, here, called, rfl⟩ := step_call next
  -- A stretch that keeps or drops the call's number and stores nothing.
  have quiet : ∀ t' : State, t'.catalog = s.catalog → t'.up.map Memory.watermark = some m.watermark →
      ∀ d : Commit, (∀ w, d.stage.number = some w → c.stage.number = some w) →
      Numbered { t' with commits := s.commits.set i d } := by
    intro t' catalog watermark d keeps
    refine numbered.kept (by rw [catalog]) (by rw [catalog]) (by rw [up]; exact watermark) ?_
    intro j e w found held
    rcases getElem?_set_cases found with ⟨rfl, rfl⟩ | ⟨-, before⟩
    · exact ⟨c, here, keeps w held⟩
    · exact ⟨e, before, held⟩
  have stays : s.up.map Memory.watermark = some m.watermark := by rw [up]; rfl
  cases called with
  | answered now prior begun found => exact quiet s rfl stays _ (by rintro w ⟨⟩)
  | stamped now begun new => exact quiet s rfl stays _ (by rintro w ⟨⟩)
  | refused message committedAt stage => exact quiet s rfl stays _ (by rintro w ⟨⟩)
  | entered committedAt watermark wal stage ran =>
    refine quiet (s.running { m with wal }) rfl rfl _ fun w held => ?_
    rw [stage]
    exact held
  | logged committedAt watermark frame position payload stage told =>
    refine quiet s rfl stays _ fun w held => ?_
    rw [stage]
    exact held
  | unlogged committedAt watermark frame e stage => exact quiet s rfl stays _ (by rintro w ⟨⟩)
  | unreceived message committedAt watermark position stage =>
    exact quiet s rfl stays _ (by rintro w ⟨⟩)
  | extended now committedAt watermark position due stage =>
    refine quiet { s.running (m.extend c.rows committedAt) with joined := _ } rfl rfl _ fun w held => ?_
    cases due <;> cases held
  | numbered committedAt stage =>
    -- The new number is above every stored one and every one handed out before.
    have top := numbered.ahead m up
    have unstored : ¬ Catalog.Stores s.catalog (m.watermark + 1) := by
      rintro ⟨x, inside, same⟩
      have := (numbered.below x inside).1
      omega
    refine ⟨numbered.below, numbered.distinct, ?_, ?_, ?_, ?_⟩
    · rintro _ ⟨⟩
      exact top.trans (Nat.le_succ _)
    · rintro _ ⟨⟩ j e w found held
      rcases getElem?_set_cases found with ⟨rfl, rfl⟩ | ⟨-, before⟩
      · obtain rfl : m.watermark + 1 = w := Option.some.inj held
        exact ⟨le_refl _, unstored⟩
      · obtain ⟨bound, free⟩ := numbered.handed m up j e w before held
        exact ⟨bound.trans (Nat.le_succ _), free⟩
    · intro j k a b w first second atFirst atSecond
      rcases getElem?_set_cases first with ⟨rfl, rfl⟩ | ⟨-, beforeFirst⟩
      · rcases getElem?_set_cases second with ⟨rfl, rfl⟩ | ⟨-, beforeSecond⟩
        · rfl
        · obtain rfl : m.watermark + 1 = w := Option.some.inj atFirst
          have := (numbered.handed m up k b _ beforeSecond atSecond).1
          omega
      · rcases getElem?_set_cases second with ⟨rfl, rfl⟩ | ⟨-, beforeSecond⟩
        · obtain rfl : m.watermark + 1 = w := Option.some.inj atSecond
          have := (numbered.handed m up j a _ beforeFirst atFirst).1
          omega
        · exact numbered.apart j k a b w beforeFirst beforeSecond atFirst atSecond
    · rintro ⟨⟩
  | received committedAt watermark position stage =>
    -- The stored number leaves the call that held it.
    have own : c.stage.number = some watermark := by rw [stage]; rfl
    obtain ⟨bound, free⟩ := numbered.handed m up i c watermark here own
    have records : ∀ x ∈ (s.catalog.commitReceipt
        ⟨c.sourceId, c.batchId, c.rows.length, committedAt, watermark, position⟩).receipts.entries,
        x = (toLex (c.sourceId, c.batchId),
          ⟨c.sourceId, c.batchId, c.rows.length, committedAt, watermark, position⟩) ∨
        x ∈ s.catalog.receipts.entries := by
      intro x inside
      rcases mem_insert.mp inside with same | ⟨old, -⟩
      · exact .inl same
      · exact .inr old
    refine ⟨?_, ?_, ?_, ?_, ?_, ?_⟩
    · intro x inside
      rcases records x inside with rfl | old
      · exact ⟨le_max_left _ _, le_max_left _ _⟩
      · obtain ⟨low, log⟩ := numbered.below x old
        exact ⟨low.trans (le_max_right _ _), log.trans (le_max_right _ _)⟩
    · intro x insideX y insideY same
      rcases records x insideX with rfl | oldX
      · rcases records y insideY with rfl | oldY
        · rfl
        · exact absurd ⟨y, oldY, same.symm⟩ free
      · rcases records y insideY with rfl | oldY
        · exact absurd ⟨x, oldX, same⟩ free
        · exact numbered.distinct x oldX y oldY same
    · intro m' up'
      obtain rfl := Option.some.inj (up.symm.trans up')
      exact max_le bound (numbered.ahead m up)
    · intro m' up' j e w found held
      obtain rfl := Option.some.inj (up.symm.trans up')
      rcases getElem?_set_cases found with ⟨rfl, rfl⟩ | ⟨other, before⟩
      · cases held
      · obtain ⟨low, unstored⟩ := numbered.handed m up j e w before held
        refine ⟨low, ?_⟩
        rintro ⟨x, inside, same⟩
        rcases records x inside with rfl | old
        · obtain rfl : watermark = w := same
          exact other (numbered.apart j i e c _ before here held own)
        · exact unstored ⟨x, old, same⟩
    · intro j k a b w first second atFirst atSecond
      rcases getElem?_set_cases first with ⟨rfl, rfl⟩ | ⟨-, beforeFirst⟩
      · cases atFirst
      · rcases getElem?_set_cases second with ⟨rfl, rfl⟩ | ⟨-, beforeSecond⟩
        · cases atSecond
        · exact numbered.apart j k a b w beforeFirst beforeSecond atFirst atSecond
    · intro down
      rw [up] at down
      cases down

theorem Numbered.step {e : Event} (numbered : Numbered s) (next : step node s e = some t) : Numbered t := by
  have unchanged : ∀ t : State, t.catalog.receipts = s.catalog.receipts →
      t.catalog.watermark = s.catalog.watermark → t.up = s.up → t.commits = s.commits →
      Numbered t := fun t receipts pair up commits =>
    numbered.kept receipts pair (by rw [up]) fun i d w found held => ⟨d, commits ▸ found, held⟩
  cases e with
  | openLog =>
    simp only [Segmented.step] at next
    split at next
    · cases next
      exact unchanged _ rfl rfl rfl rfl
    · cases next
  | recordCheckpoint =>
    simp only [Segmented.step] at next
    split at next
    · cases next
      exact unchanged _ rfl rfl rfl rfl
    · cases next
  | openWith now =>
    simp only [Segmented.step] at next
    split at next
    · rename_i down opened
      obtain ⟨m, ran, same⟩ := Option.bind_eq_some_iff.mp next
      cases same
      have watermark : m.watermark = s.catalog.watermark.1 := by
        unfold recovered at ran
        split at ran
        · cases ran
        · cases ran
          rfl
      refine ⟨numbered.below, numbered.distinct, ?_, ?_, numbered.apart, by rintro ⟨⟩⟩
      · rintro _ ⟨⟩
        exact watermark.ge
      · intro _ _ i c w found held
        rw [numbered.idle down i c found] at held
        cases held
    · cases next
  | crash =>
    obtain ⟨m, up, same⟩ := Option.bind_eq_some_iff.mp next
    cases same
    have gone : ∀ (i : Nat) (c : Commit), (s.commits.map Commit.dies)[i]? = some c →
        c.stage.number = none := by
      intro i c found
      rw [getElem?_map] at found
      obtain ⟨d, -, rfl⟩ := Option.map_eq_some_iff.mp found
      unfold Commit.dies
      split
      · rename_i result stage
        rw [stage]
        rfl
      · rfl
    refine ⟨numbered.below, numbered.distinct, by simp, by simp, ?_, fun _ => gone⟩
    intro i j c d w first second held
    rw [gone i c first] at held
    cases held
  | commit sourceId batchId rows =>
    obtain ⟨m, up, same⟩ := Option.bind_eq_some_iff.mp next
    cases same
    refine numbered.kept rfl rfl rfl fun i d w found held => ?_
    rw [getElem?_append] at found
    split at found
    · exact ⟨d, found, held⟩
    · rw [getElem?_singleton] at found
      split at found
      · cases found
        cases held
      · cases found
  | call i e => exact numbered.call next
  | _ =>
    have so := step_aside rfl next
    exact numbered.kept so.receipts so.pair so.watermark fun i d w found held =>
      (so.commits i d found).imp fun c both => ⟨both.1, both.2.number held⟩

end

/-- In every state of every run no two stored receipts share a watermark, and the stored
pair is at least every receipt's watermark and every receipt's log position. -/
theorem watermarks_never_shared {node : Node} {t : State} (run : Reach (step node) anyStep .empty t) :
    (∀ x ∈ t.catalog.receipts.entries, ∀ y ∈ t.catalog.receipts.entries,
      x.2.commitWatermark = y.2.commitWatermark → x = y) ∧
    ∀ x ∈ t.catalog.receipts.entries, x.2.commitWatermark ≤ t.catalog.watermark.1 ∧
      x.2.logPosition ≤ t.catalog.watermark.2 := by
  have numbered : Numbered t :=
    Reach.invariant _ Numbered.empty (fun _ _ _ held _ next => held.step next) run
  exact ⟨numbered.distinct, numbered.below⟩

theorem watermarks_never_shared_after_restart : ∃ t : State, Reach (step plainNode) anyStep .empty t ∧
      t.catalog.receipts.values.map Receipt.commitWatermark = [1, 2] ∧
      (∀ x ∈ t.catalog.receipts.entries, ∀ y ∈ t.catalog.receipts.entries,
        x.2.commitWatermark = y.2.commitWatermark → x = y) ∧
      ∀ x ∈ t.catalog.receipts.entries, x.2.commitWatermark ≤ t.catalog.watermark.1 ∧
        x.2.logPosition ≤ t.catalog.watermark.2 := by
  obtain ⟨t, run, stored⟩ := @Reach.of_exec_any _ _ (step plainNode) anyStep _ .empty
    (.openWith 1 :: commitAlone 0 0 1 1 [EventRow.new 7 "event" "opened" 0] ++
      [.crash, .openWith 2] ++ commitAlone 1 0 1 2 [EventRow.new 8 "event" "closed" 5])
    (fun t => t.catalog.receipts.values.map Receipt.commitWatermark = [1, 2]) (by decide +kernel)
  exact ⟨t, run, by simpa using stored, watermarks_never_shared run⟩

end TallyOwl.Segmented
