import TallyOwl.Store.Segmented.State

/-! What a step leaves alone. Everything but a commit's own stretches and the life of
the process keeps the receipts, the watermarks and the commits as they are, save that a
commit which seals goes on. -/
namespace TallyOwl.Segmented
open Lib Format Locate RowCodec List OrderedMap

/-- The two moves a seal makes for the commit that runs it, with the results that
`Ends` allows. -/
inductive Commit.Seals (Ends : Except StoreError (Option Id) → Prop) (c : Commit) :
    Commit → Prop where
  | same : c.Seals Ends c
  | starts (outcome : CommitOutcome) (due : c.stage = .due outcome) :
      c.Seals Ends (c.goes (.sealing outcome))
  | ends (outcome : CommitOutcome) (result : Except StoreError (Option Id))
      (sealing : c.stage = .sealing outcome) (allowed : Ends result) : c.Seals Ends (c.sealed result)

structure Aside (Ends : Except StoreError (Option Id) → Prop) (s t : State) : Prop where
  receipts : t.catalog.receipts = s.catalog.receipts
  pair : t.catalog.watermark = s.catalog.watermark
  accepted : t.accepted = s.accepted
  joined : t.joined = s.joined
  watermark : t.up.map Memory.watermark = s.up.map Memory.watermark
  length : t.commits.length = s.commits.length
  commits : ∀ (i : Nat) (d : Commit), t.commits[i]? = some d → ∃ c : Commit, s.commits[i]? = some c ∧ c.Seals Ends d

variable {Ends : Except StoreError (Option Id) → Prop}

variable {s t : State}

theorem Aside.of_same (receipts : t.catalog.receipts = s.catalog.receipts)
    (pair : t.catalog.watermark = s.catalog.watermark) (accepted : t.accepted = s.accepted)
    (joined : t.joined = s.joined) (watermark : t.up.map Memory.watermark = s.up.map Memory.watermark)
    (commits : t.commits = s.commits) : Aside Ends s t :=
  ⟨receipts, pair, accepted, joined, watermark, by rw [commits],
    fun i d found => ⟨d, commits ▸ found, .same⟩⟩

/-- The events of a store that goes on running, less a commit's own. -/
def Event.aside : Event → Bool
  | .openLog | .recordCheckpoint | .openWith _ | .crash | .commit _ _ _ | .call _ _ => false
  | _ => true

theorem Commit.sealed_eq (c : Commit) (result : Except StoreError (Option Id)) :
    (∃ outcome, c.stage = .sealing outcome) ∨ c.sealed result = c := by
  unfold Commit.sealed
  split
  · exact .inl ⟨_, ‹_›⟩
  · exact .inl ⟨_, ‹_›⟩
  · exact .inl ⟨_, ‹_›⟩
  · exact .inr rfl

theorem Aside.finish (so : Aside Ends s t) (same : t.commits = s.commits)
    (holder : Seal) (result : Except StoreError (Option Id)) (allowed : Ends result) :
    Aside Ends s (t.finish holder result) := by
  have moved : ∀ (i : Nat) (d : Commit), (t.finish holder result).commits[i]? = some d →
      ∃ c : Commit, t.commits[i]? = some c ∧ c.Seals Ends d := by
    intro i d found
    unfold State.finish at found
    split at found
    · exact ⟨d, found, .same⟩
    · split at found
      · exact ⟨d, found, .same⟩
      · rename_i k c here
        rw [getElem?_set] at found
        split at found
        · rename_i equal
          subst equal
          split at found
          · cases found
            rcases c.sealed_eq result with ⟨outcome, sealing⟩ | stays
            · exact ⟨c, here, .ends outcome result sealing allowed⟩
            · exact ⟨c, here, by rw [stays]; exact .same⟩
          · cases found
        · exact ⟨d, found, .same⟩
  refine ⟨so.receipts, so.pair, so.accepted, so.joined, so.watermark, ?_, ?_⟩
  · have size : (t.finish holder result).commits.length = t.commits.length := by
      unfold State.finish
      split
      · rfl
      · split <;> simp
    rw [size, so.length]
  · intro i d found
    obtain ⟨c, here, seals⟩ := moved i d found
    rw [same] at here
    exact ⟨c, here, seals⟩

theorem Aside.weaken {Ends' : Except StoreError (Option Id) → Prop}
    (so : Aside Ends s t) (weaker : ∀ result, Ends result → Ends' result) : Aside Ends' s t := by
  refine ⟨so.receipts, so.pair, so.accepted, so.joined, so.watermark, so.length, ?_⟩
  intro i d found
  obtain ⟨c, here, seals⟩ := so.commits i d found
  cases seals with
  | same => exact ⟨_, here, .same⟩
  | starts outcome due => exact ⟨c, here, .starts outcome due⟩
  | ends outcome result sealing allowed =>
    exact ⟨c, here, .ends outcome result sealing (weaker result allowed)⟩

section
variable {node : Node} {s t : State} {m : Memory}

inductive Called (node : Node) (s : State) (m : Memory) (c : Commit) :
    CallEvent → State → Commit → Prop where
  | answered (now : Int) (prior : Receipt) (begun : c.stage = .begun)
      (found : s.catalog.receipt c.sourceId c.batchId = some prior) :
      Called node s m c (.lookup now) s (c.goes (.returned (.ok
        ⟨prior.accepted, prior.committedAt, prior.commitWatermark, true⟩)))
  | stamped (now : Int) (begun : c.stage = .begun)
      (new : s.catalog.receipt c.sourceId c.batchId = none) :
      Called node s m c (.lookup now) s
        { c with rows := stamp c.sourceId c.batchId now c.rows, stage := .stamped now }
  | refused (message : String) (committedAt : Int) (stage : c.stage = .stamped committedAt) :
      Called node s m c (.noRoom message) s (c.goes (.returned (.error (.exhausted message))))
  | numbered (committedAt : Int) (stage : c.stage = .stamped committedAt) :
      Called node s m c .allocate (s.running { m with watermark := m.watermark + 1 })
        (c.goes (.numbered committedAt (m.watermark + 1)))
  | entered (committedAt : Int) (watermark : Nat) (wal : Wal.State)
      (stage : c.stage = .numbered committedAt watermark)
      (ran : walStep node m.wal (.append (encodeRows node.floatText c.rows)) = some wal) :
      Called node s m c .append (s.running { m with wal })
        (c.goes (.appending committedAt watermark m.wal.calls.length))
  | logged (committedAt : Int) (watermark frame position : Nat) (payload : Bytes)
      (stage : c.stage = .appending committedAt watermark frame)
      (told : m.wal.calls[frame]? = some ⟨payload, .returned (.ok position)⟩) :
      Called node s m c .appended s (c.goes (.logged committedAt watermark position))
  | unlogged (committedAt : Int) (watermark frame : Nat) (e : Wal.WalError)
      (stage : c.stage = .appending committedAt watermark frame) :
      Called node s m c .appended s (c.goes (.returned (.error (.ofWal e))))
  | received (committedAt : Int) (watermark position : Nat)
      (stage : c.stage = .logged committedAt watermark position) :
      Called node s m c .receipt
        { s with
          catalog := s.catalog.commitReceipt
            ⟨c.sourceId, c.batchId, c.rows.length, committedAt, watermark, position⟩
          accepted := s.accepted ++
            [(⟨c.sourceId, c.batchId, c.rows.length, committedAt, watermark, position⟩, c.rows)] }
        (c.goes (.received committedAt watermark position))
  | unreceived (message : String) (committedAt : Int) (watermark position : Nat)
      (stage : c.stage = .logged committedAt watermark position) :
      Called node s m c (.receiptFails message) s
        (c.goes (.returned (.error (.unavailable message))))
  | extended (now committedAt : Int) (watermark position : Nat) (due : Bool)
      (stage : c.stage = .received committedAt watermark position) :
      Called node s m c (.extend now)
        { s.running (m.extend c.rows committedAt) with joined := s.joined ++ [c.key] }
        (c.goes (if due then .due ⟨c.rows.length, committedAt, watermark, false⟩
          else .returned (.ok ⟨c.rows.length, committedAt, watermark, false⟩)))

theorem callStep_called {c d : Commit} {e : CallEvent}
    (next : callStep node s m c e = some (t, d)) : Called node s m c e t d := by
  cases e with
  | lookup now =>
    simp only [callStep] at next
    split at next
    · rename_i begun
      split at next
      · rename_i prior found
        cases next
        exact .answered now prior begun found
      · rename_i new
        cases next
        exact .stamped now begun new
    · cases next
  | noRoom message =>
    simp only [callStep] at next
    split at next
    · cases next
      exact .refused message _ ‹_›
    · cases next
  | allocate =>
    simp only [callStep] at next
    split at next
    · cases next
      exact .numbered _ ‹_›
    · cases next
  | append =>
    simp only [callStep] at next
    split at next
    · obtain ⟨wal, ran, same⟩ := Option.bind_eq_some_iff.mp next
      cases same
      exact .entered _ _ wal ‹_› ran
    · cases next
  | appended =>
    simp only [callStep] at next
    split at next
    · split at next
      · cases next
        exact .logged _ _ _ _ _ ‹_› ‹_›
      · cases next
        exact .unlogged _ _ _ _ ‹_›
      · cases next
    · cases next
  | receipt =>
    simp only [callStep] at next
    split at next
    · cases next
      exact .received _ _ _ ‹_›
    · cases next
  | receiptFails message =>
    simp only [callStep] at next
    split at next
    · cases next
      exact .unreceived message _ _ _ ‹_›
    · cases next
  | extend now =>
    simp only [callStep] at next
    split at next
    · cases next
      exact .extended now _ _ _ _ ‹_›
    · cases next

theorem step_call {i : Nat} {e : CallEvent} (next : step node s (.call i e) = some t) :
    ∃ m c t' d, s.up = some m ∧ s.commits[i]? = some c ∧ Called node s m c e t' d ∧
      t = { t' with commits := s.commits.set i d } := by
  obtain ⟨m, up, more⟩ := Option.bind_eq_some_iff.mp next
  obtain ⟨c, here, rest⟩ := Option.bind_eq_some_iff.mp more
  obtain ⟨⟨t', d⟩, called, same⟩ := Option.bind_eq_some_iff.mp rest
  exact ⟨m, c, t', d, up, here, callStep_called called, (Option.some.inj same).symm⟩

/-- The error other than a refusal for space that this event ends a seal with. -/
def sealError (node : Node) (m : Memory) (holder : Seal) : SealEvent → Option StoreError
  | .fails error _ => some error
  | .build _ =>
      match holder.stage with
      | .drained batch =>
          if ∃ w ∈ batch.plan.map (sealedSegment node batch), w.2 = [] then
            some (.invalidArgument needsOneItem)
          else none
      | _ => none
  | .done =>
      match holder.stage with
      | .reclaiming _ j =>
          match m.wal.reclaims[j]? with
          | some ⟨_, some (.error e)⟩ => some (.ofWal e)
          | _ => none
      | _ => none
  | _ => none

def EndsWith (node : Node) (m : Memory) (holder : Seal) (e : SealEvent)
    (result : Except StoreError (Option Id)) : Prop :=
  ∀ error, result = .error error →
    (∃ message, error = .exhausted message) ∨ sealError node m holder e = some error

def SealStage.unpublished : SealStage → Option Drained
  | .drained batch | .writing batch _ _ => some batch
  | _ => none

/-- The batch a seal lists among the sealing batches: from its drain to its drop. -/
def SealStage.listed : SealStage → Option Drained
  | .drained batch | .writing batch _ _ | .published batch _ => some batch
  | _ => none

theorem SealStage.unpublished_of_listed {stage : SealStage} (settled : stage.listed = none) :
    stage.unpublished = none := by
  cases stage <;> first | rfl | cases settled

theorem SealStage.listed_of_unpublished {stage : SealStage} {batch : Drained}
    (drained : stage.unpublished = some batch) : stage.listed = some batch := by
  cases stage <;> first | exact drained | cases drained

def State.batch (s : State) : Option Drained := s.turn.bind fun holder => holder.stage.unpublished

variable {holder : Seal}

theorem State.batch_eq (turn : s.turn = some holder) : s.batch = holder.stage.unpublished := by
  rw [State.batch, turn]
  rfl

theorem mem_withProjects {projects : OrderedMap (Id ×ₗ Id) Unit} {rows : List EventRow} {row : EventRow}
    (known : row ∈ rows ∨ (projectOf row, ()) ∈ projects.entries) :
    (projectOf row, ()) ∈ (withProjects projects rows).entries := by
  unfold withProjects
  by_cases mine : ∃ r ∈ rows, projectOf r = projectOf row
  · obtain ⟨r, inside, same⟩ := mine
    rw [← same]
    exact mem_foldl_insert_new inside fun _ _ _ => rfl
  · rcases known with inside | old
    · exact absurd ⟨row, inside, rfl⟩ mine
    · exact mem_foldl_insert_old old fun r inside same => mine ⟨r, inside, same⟩

inductive Sealed (node : Node) (s : State) (m : Memory) (holder : Seal) :
    SealEvent → State → Prop where
  | stops (e : SealEvent) (result : Except StoreError (Option Id))
      (settled : holder.stage.listed = none) (allowed : EndsWith node m holder e result) :
      Sealed node s m holder e (s.finish holder result)
  | checked (stage : holder.stage = .entered) :
      Sealed node s m holder (.check none) { s with turn := some { holder with stage := .checked } }
  | drained (segmentIds : List Id) (stage : holder.stage = .checked)
      (free : ∀ c ∈ s.commits, c.stage.holdsGate = false) (rows : m.openRows ≠ [])
      (length : segmentIds.length = m.openProjects.entries.length) :
      Sealed node s m holder (.drain segmentIds) { s.running (m.drain segmentIds).1 with
        turn := some { holder with stage := .drained (m.drain segmentIds).2 } }
  | emptied (now : Int) (batch : Drained) (stage : holder.stage = .drained batch)
      (nothing : batch.plan = []) :
      Sealed node s m holder (.build now)
        { s with turn := some { holder with stage := .published batch none } }
  | built (now : Int) (batch : Drained) (stage : holder.stage = .drained batch) :
      Sealed node s m holder (.build now) { s with turn := some { holder with
        stage := .writing batch (batch.plan.map (sealedSegment node batch))
          (batch.plan.map (sealedSegment node batch)) } }
  | wrote (batch : Drained) (segments : List Written) (w : Written) (left : List Written)
      (stage : holder.stage = .writing batch segments (w :: left)) :
      Sealed node s m holder .write { s with
        files := s.files.insert w.1.segmentId w.2
        turn := some { holder with stage := .writing batch segments left } }
  | published (batch : Drained) (segments : List Written) (catalog : Catalog)
      (stage : holder.stage = .writing batch segments [])
      (published : s.catalog.publishSealed (segments.map Prod.fst)
        (locatorFor node.hash node.floatText segments)
        (min (batch.range.2 + 1) (2 ^ 64 - 1)) = some catalog) :
      Sealed node s m holder .publish { s with
        catalog
        turn := some { holder with
          stage := .published batch ((segments.map fun w => w.1.segmentId).getLast?) } }
  | reopened (e : SealEvent) (batch : Drained) (error : StoreError) (now : Int)
      (stage : holder.stage.unpublished = some batch)
      (allowed : EndsWith node m holder e (.error error)) :
      Sealed node s m holder e ((s.running (m.reopen batch now)).finish holder (.error error))
  | dropped (batch : Drained) (written : Option Id) (stage : holder.stage = .published batch written) :
      Sealed node s m holder .drop { s.running { m with
          sealing := m.sealing.filter fun b => b.address ≠ batch.address } with
        turn := some { holder with stage := .dropped written } }
  | reclaims (written : Option Id) (fault : Option Wal.Fault) (wal : Wal.State)
      (stage : holder.stage = .dropped written) (positive : s.catalog.logCheckpoint.getD 0 > 0)
      (ran : walStep node m.wal (.reclaim (s.catalog.logCheckpoint.getD 0 - 1) fault) = some wal) :
      Sealed node s m holder (.reclaim fault) { s.running { m with wal } with
        turn := some { holder with stage := .reclaiming written m.wal.reclaims.length } }

variable {e : SealEvent}

theorem sealStep_sealed (next : sealStep node s m holder e = some t) : Sealed node s m holder e t := by
  have fine : ∀ written, EndsWith node m holder e (.ok written) := by rintro written error ⟨⟩
  have full : ∀ message, EndsWith node m holder e (.error (.exhausted message)) := by
    rintro message _ ⟨⟩
    exact .inl ⟨message, rfl⟩
  have bare : ∀ {stage : SealStage}, holder.stage = stage → stage.listed = none →
      holder.stage.listed = none := by
    rintro _ rfl none
    exact none
  cases e with
  | check refusal =>
    simp only [sealStep] at next
    split at next
    · rename_i stage
      split at next
      · cases next
        exact .stops _ _ (bare stage rfl) (fine none)
      · split at next
        · cases next
          exact .stops _ _ (bare stage rfl) (full _)
        · cases next
          exact .checked stage
    · cases next
  | drain segmentIds =>
    simp only [sealStep] at next
    split at next
    · rename_i stage
      split at next
      · rename_i free
        split at next
        · cases next
          exact .stops _ _ (bare stage rfl) (fine none)
        · rename_i rows
          split at next
          · rename_i length
            cases next
            exact .drained segmentIds stage free rows length
          · cases next
      · cases next
    · cases next
  | build now =>
    simp only [sealStep] at next
    split at next
    · rename_i batch stage
      split at next
      · rename_i nothing
        cases next
        exact .emptied now batch stage (map_eq_nil_iff.mp nothing)
      · split at next
        · rename_i empty
          cases next
          refine .reopened _ batch _ now (by rw [stage]; rfl) ?_
          rintro _ ⟨⟩
          exact .inr (by simp only [sealError, stage, if_pos empty])
        · cases next
          exact .built now batch stage
    · cases next
  | write =>
    simp only [sealStep] at next
    split at next
    · rename_i batch segments w left stage
      cases next
      exact .wrote batch segments w left stage
    · cases next
  | publish =>
    simp only [sealStep] at next
    split at next
    · rename_i batch segments stage
      obtain ⟨catalog, published, same⟩ := Option.bind_eq_some_iff.mp next
      cases same
      exact .published batch segments catalog stage published
    · cases next
  | fails error now =>
    have allowed : EndsWith node m holder (.fails error now) (.error error) := by
      rintro _ ⟨⟩
      exact .inr rfl
    simp only [sealStep] at next
    split at next
    · rename_i batch stage
      cases next
      exact .reopened _ batch error now (by rw [stage]; rfl) allowed
    · rename_i batch segments left stage
      cases next
      exact .reopened _ batch error now (by rw [stage]; rfl) allowed
    · cases next
  | drop =>
    simp only [sealStep] at next
    split at next
    · rename_i batch written stage
      cases next
      exact .dropped batch written stage
    · cases next
  | reclaim fault =>
    simp only [sealStep] at next
    split at next
    · rename_i written stage
      split at next
      · rename_i positive
        obtain ⟨wal, ran, same⟩ := Option.bind_eq_some_iff.mp next
        cases same
        exact .reclaims written fault wal stage positive ran
      · cases next
        exact .stops _ _ (bare stage rfl) (fine _)
    · cases next
  | done =>
    simp only [sealStep] at next
    split at next
    · rename_i written j stage
      split at next
      · cases next
        exact .stops _ _ (bare stage rfl) (fine _)
      · rename_i failed
        cases next
        refine .stops _ _ (bare stage rfl) ?_
        rintro _ ⟨⟩
        exact .inr (by simp only [sealError, stage, failed])
      · cases next
    · cases next

theorem sealStep_aside (up : s.up = some m)
    (next : sealStep node s m holder e = some t) : Aside (EndsWith node m holder e) s t := by
  have still : Aside (EndsWith node m holder e) s s := .of_same rfl rfl rfl rfl rfl rfl
  have runs : ∀ m' : Memory, m'.watermark = m.watermark →
      Aside (EndsWith node m holder e) s (s.running m') := by
    intro m' same
    exact .of_same rfl rfl rfl rfl (by simp [State.running, up, same]) rfl
  cases sealStep_sealed next with
  | stops _ result settled allowed => exact still.finish rfl holder result allowed
  | checked stage => exact .of_same rfl rfl rfl rfl rfl rfl
  | drained segmentIds stage free rows length =>
    exact .of_same rfl rfl rfl rfl (by simp [State.running, Memory.drain, up]) rfl
  | emptied now batch stage nothing => exact .of_same rfl rfl rfl rfl rfl rfl
  | built now batch stage => exact .of_same rfl rfl rfl rfl rfl rfl
  | wrote batch segments w left stage => exact .of_same rfl rfl rfl rfl rfl rfl
  | published batch segments catalog stage published =>
    obtain ⟨receipts, pair, -⟩ := Catalog.publish_receipts published
    exact .of_same receipts pair rfl rfl rfl rfl
  | reopened _ batch error now stage allowed =>
    exact (runs (m.reopen batch now) rfl).finish rfl holder _ allowed
  | dropped batch written stage =>
    exact .of_same rfl rfl rfl rfl (by simp [State.running, up]) rfl
  | reclaims written fault wal stage positive ran =>
    exact .of_same rfl rfl rfl rfl (by simp [State.running, up]) rfl

theorem step_sealing (next : step node s (.sealing e) = some t) :
    ∃ m holder, s.up = some m ∧ s.turn = some holder ∧ Sealed node s m holder e t := by
  obtain ⟨m, up, more⟩ := Option.bind_eq_some_iff.mp next
  obtain ⟨holder, turn, same⟩ := Option.bind_eq_some_iff.mp more
  exact ⟨m, holder, up, turn, sealStep_sealed same⟩

def Event.MayEnd (node : Node) (s : State) (result : Except StoreError (Option Id)) : Event → Prop
  | .sealing e => ∃ m holder, s.up = some m ∧ s.turn = some holder ∧ EndsWith node m holder e result
  | _ => False

theorem step_aside {e : Event} (aside : e.aside = true) (next : step node s e = some t) :
    Aside (fun result => e.MayEnd node s result) s t := by
  have still : Aside (fun result => e.MayEnd node s result) s s := .of_same rfl rfl rfl rfl rfl rfl
  cases e with
  | openLog => cases aside
  | recordCheckpoint => cases aside
  | openWith now => cases aside
  | crash => cases aside
  | commit sourceId batchId rows => cases aside
  | call i e => cases aside
  | log e =>
    obtain ⟨m, up, more⟩ := Option.bind_eq_some_iff.mp next
    split at more
    · obtain ⟨wal, -, same⟩ := Option.bind_eq_some_iff.mp more
      cases same
      exact .of_same rfl rfl rfl rfl (by simp [State.running, up]) rfl
    · cases more
  | sealStart owner =>
    obtain ⟨m, up, more⟩ := Option.bind_eq_some_iff.mp next
    split at more
    · cases more
      exact .of_same rfl rfl rfl rfl rfl rfl
    · split at more
      · rename_i i source batch rows outcome here
        cases more
        refine ⟨rfl, rfl, rfl, rfl, rfl, by simp, fun j d found => ?_⟩
        rw [getElem?_set] at found
        split at found
        · rename_i equal
          subst equal
          split at found
          · cases found
            exact ⟨_, here, .starts outcome rfl⟩
          · cases found
        · exact ⟨d, found, .same⟩
      · cases more
    · cases more
  | sealing e =>
    obtain ⟨m, up, more⟩ := Option.bind_eq_some_iff.mp next
    obtain ⟨holder, turn, same⟩ := Option.bind_eq_some_iff.mp more
    exact (sealStep_aside up same).weaken fun result ends => ⟨m, holder, up, turn, ends⟩
  | install segment =>
    obtain ⟨m, up, more⟩ := Option.bind_eq_some_iff.mp next
    split at more
    · cases more
      exact still
    · cases more
      exact .of_same rfl rfl rfl rfl rfl rfl
  | installWrite k =>
    obtain ⟨m, up, more⟩ := Option.bind_eq_some_iff.mp next
    obtain ⟨install, -, same⟩ := Option.bind_eq_some_iff.mp more
    cases same
    exact .of_same rfl rfl rfl rfl rfl rfl
  | installPublish k =>
    obtain ⟨m, up, more⟩ := Option.bind_eq_some_iff.mp next
    obtain ⟨install, -, same⟩ := Option.bind_eq_some_iff.mp more
    split at same
    · obtain ⟨catalog, published, last⟩ := Option.bind_eq_some_iff.mp same
      cases last
      obtain ⟨receipts, pair, -⟩ := Catalog.publish_receipts published
      exact .of_same receipts pair rfl rfl rfl rfl
    · cases same
  | swap retire replacements =>
    obtain ⟨m, up, more⟩ := Option.bind_eq_some_iff.mp next
    split at more
    · cases more
      exact still
    · cases more
      exact .of_same rfl rfl rfl rfl rfl rfl
  | swapWrite k =>
    obtain ⟨m, up, more⟩ := Option.bind_eq_some_iff.mp next
    split at more
    · cases more
      exact .of_same rfl rfl rfl rfl rfl rfl
    · cases more
  | swapPublish k =>
    obtain ⟨m, up, more⟩ := Option.bind_eq_some_iff.mp next
    split at more
    · obtain ⟨catalog, published, last⟩ := Option.bind_eq_some_iff.mp more
      cases last
      obtain ⟨receipts, pair, -⟩ := Catalog.publish_receipts published
      exact .of_same receipts pair rfl rfl rfl rfl
    · cases more
  | consolidate k bucket =>
    obtain ⟨m, up, more⟩ := Option.bind_eq_some_iff.mp next
    split at more
    · obtain ⟨catalog, done, last⟩ := Option.bind_eq_some_iff.mp more
      cases last
      obtain ⟨runs, rfl⟩ := Catalog.consolidate_runs done
      exact .of_same rfl rfl rfl rfl rfl rfl
    · cases more

end
end TallyOwl.Segmented
