import TallyOwl.Store.Segmented.Journal

/-! No acknowledged row is lost. A row changes hands from its log frame to the open
buffer, to a sealing batch and to a segment; at every point between two durable steps it
is in a live segment, or in memory with its frame still above the checkpoint. -/
namespace TallyOwl.Segmented
open Lib Format Locate RowCodec List OrderedMap

def Stands (node : Node) (s : State) (row : EventRow) : Prop :=
  ∃ r, InSegment s r ∧ shown node.floatText r = shown node.floatText row

/-- A running store still has the row: a live segment, the open buffer or the sealing
batch holds it, the last two with its frame. -/
inductive Secure (node : Node) (s : State) (m : Memory) (kept : List Wal.Frame) (row : EventRow) :
    Prop where
  | live (stands : Stands node s row)
  | opened (holds : Shows node m.openRows row) (framed : Framed node kept m.openFrom row)
  | sealing (batch : Drained) (drained : s.batch = some batch) (holds : Shows node batch.rows row)
      (framed : Framed node kept batch.range.1 row)

def Durable (node : Node) (s : State) (kept : List Wal.Frame) (row : EventRow) : Prop :=
  Stands node s row ∨ Framed node kept s.checkpoint row

structure Buffered (m : Memory) (checkpoint : Nat) : Prop where
  covered : checkpoint ≤ m.openFrom
  behind : m.openFrom ≤ m.wal.shared.nextPosition
  started : m.openRows ≠ [] → 0 < m.wal.shared.nextPosition
  projects : ∀ row ∈ m.openRows, (projectOf row, ()) ∈ m.openProjects.entries

structure Batched (m : Memory) (checkpoint : Nat) (batch : Drained) : Prop where
  covered : checkpoint ≤ batch.range.1
  ordered : batch.range.1 ≤ m.openFrom
  through : batch.range.2 + 1 = m.openFrom
  started : 0 < m.wal.shared.nextPosition
  sealing : ∃ b ∈ m.sealing, b.rows = batch.rows
  planned : ∀ row ∈ batch.rows, ∃ id, (projectOf row, id) ∈ batch.plan

structure Running (node : Node) (s : State) (m : Memory) (kept : List Wal.Frame) : Prop where
  journal : Journal node m.wal kept s.checkpoint
  buffered : Buffered m s.checkpoint
  batched : ∀ batch, s.batch = some batch → Batched m s.checkpoint batch
  flights : ∀ c ∈ s.commits, InFlight node m kept c

structure Resting (node : Node) (s : State) (kept : List Wal.Frame) : Prop where
  rests : Wal.Rests node.hash s.log kept
  idle : s.turn = none
  settled : ∀ c ∈ s.commits, c.stage = .lost ∨ ∃ result, c.stage = .returned result

/-- The outcome a commit has or will return, once its rows are in the open buffer. -/
def CommitStage.outcome : CommitStage → Option CommitOutcome
  | .due outcome | .sealing outcome | .returned (.ok outcome) => some outcome
  | _ => none

/-- What went in under a receipt is the batch that the outcome of this call is about. -/
structure Answers (x : Receipt × List EventRow) (c : Commit) (outcome : CommitOutcome) : Prop where
  batch : x.1.sourceId = c.sourceId ∧ x.1.batchId = c.batchId
  accepted : x.1.accepted = outcome.accepted
  committedAt : x.1.committedAt = outcome.committedAt
  watermark : x.1.commitWatermark = outcome.commitWatermark
  own : outcome.deduplicated = false → x.2 = c.rows

/-- The call stored this receipt and its rows are not yet in the open buffer. -/
def Extends (c : Commit) (x : Receipt × List EventRow) : Prop :=
  c.stage = .received x.1.committedAt x.1.commitWatermark x.1.logPosition ∧
    c.sourceId = x.1.sourceId ∧ c.batchId = x.1.batchId ∧ c.rows = x.2

structure Accounts (s : State) (safe : EventRow → Prop) : Prop where
  accepted : ∀ x ∈ s.accepted, (∀ row ∈ x.2, safe row) ∨ ∃ c ∈ s.commits, Extends c x
  received : ∀ c ∈ s.commits, ∀ committedAt watermark position,
    c.stage = .received committedAt watermark position →
      (⟨c.sourceId, c.batchId, c.rows.length, committedAt, watermark, position⟩, c.rows) ∈ s.accepted
  receipts : ∀ x ∈ s.catalog.receipts.entries, x.1 = toLex (x.2.sourceId, x.2.batchId) ∧
    ∃ rows, (x.2, rows) ∈ s.accepted
  answered : ∀ c ∈ s.commits, ∀ outcome, c.stage.outcome = some outcome →
    ∃ x ∈ s.accepted, Answers x c outcome ∧ ∀ row ∈ x.2, safe row

structure Held (node : Node) (s : State) : Prop where
  shelved : Shelved node s
  fit : ∀ c ∈ s.commits, RowsFit node c.rows
  up : ∀ m, s.up = some m → ∃ kept, Running node s m kept ∧ Accounts s (Secure node s m kept)
  down : s.up = none → ∃ kept, Resting node s kept ∧ Accounts s (Durable node s kept)

section
variable {Ends : Except StoreError (Option Id) → Prop} {s t : State} {c d : Commit}

theorem Aside.mem (so : Aside Ends s t) (inside : d ∈ t.commits) : ∃ c ∈ s.commits, c.Seals Ends d := by
  obtain ⟨i, found⟩ := mem_iff_getElem?.mp inside
  obtain ⟨c, here, seals⟩ := so.commits i d found
  exact ⟨c, mem_of_getElem? here, seals⟩

theorem Aside.mem_old (so : Aside Ends s t) (inside : c ∈ s.commits) : ∃ d ∈ t.commits, c.Seals Ends d := by
  obtain ⟨i, found⟩ := mem_iff_getElem?.mp inside
  have bound : i < t.commits.length := by
    rw [so.length]
    exact (List.getElem?_eq_some_iff.mp found).1
  obtain ⟨c', here, seals⟩ := so.commits i _ (getElem?_eq_getElem bound)
  rw [found] at here
  cases here
  exact ⟨_, getElem_mem bound, seals⟩

theorem Commit.Seals.same_call (seals : c.Seals Ends d) :
    d.sourceId = c.sourceId ∧ d.batchId = c.batchId ∧ d.rows = c.rows := by
  cases seals with
  | same => exact ⟨rfl, rfl, rfl⟩
  | starts outcome due => exact ⟨rfl, rfl, rfl⟩
  | ends outcome result sealing allowed =>
    unfold Commit.sealed
    split <;> exact ⟨rfl, rfl, rfl⟩

theorem Commit.Seals.outcome {outcome : CommitOutcome} (seals : c.Seals Ends d)
    (has : d.stage.outcome = some outcome) : c.stage.outcome = some outcome := by
  cases seals with
  | same => exact has
  | starts other due => rwa [due]
  | ends other result sealing allowed =>
    unfold Commit.sealed at has
    rw [sealing] at has ⊢
    cases result with
    | ok written => exact has
    | error e => cases e <;> first | exact has | cases has

theorem Commit.Seals.eq_of_gate (seals : c.Seals Ends d) (gate : c.stage.holdsGate = true) : d = c := by
  cases seals with
  | same => rfl
  | starts outcome due =>
    rw [due] at gate
    cases gate
  | ends outcome result sealing allowed =>
    rw [sealing] at gate
    cases gate

theorem Commit.Seals.gate (seals : c.Seals Ends d) (gate : d.stage.holdsGate = true) : d = c := by
  cases seals with
  | same => rfl
  | starts outcome due => cases gate
  | ends outcome result sealing allowed =>
    unfold Commit.sealed at gate
    rw [sealing] at gate
    cases result with
    | ok written => cases gate
    | error e => cases e <;> cases gate

theorem inFlight_of_idle {node : Node} {m : Memory} {kept : List Wal.Frame}
    (idle : d.stage.holdsGate = false) : InFlight node m kept d := by
  unfold InFlight
  split
  · rename_i stage
    simp [stage, CommitStage.holdsGate] at idle
  · rename_i stage
    simp [stage, CommitStage.holdsGate] at idle
  · rename_i stage
    simp [stage, CommitStage.holdsGate] at idle
  · trivial

theorem Commit.Seals.inFlight {node : Node} {m : Memory} {kept : List Wal.Frame}
    (seals : c.Seals Ends d) (flight : InFlight node m kept c) : InFlight node m kept d := by
  cases gate : d.stage.holdsGate with
  | false => exact inFlight_of_idle gate
  | true => rwa [seals.gate gate]

theorem Accounts.aside {safe safe' : EventRow → Prop} (accounts : Accounts s safe)
    (so : Aside Ends s t) (keeps : ∀ row, safe row → safe' row) : Accounts t safe' where
  accepted x inside := by
    rw [so.accepted] at inside
    rcases accounts.accepted x inside with all | ⟨c, there, extending⟩
    · exact .inl fun row mem => keeps row (all row mem)
    · obtain ⟨d, here, seals⟩ := so.mem_old there
      obtain rfl := seals.eq_of_gate (by rw [extending.1]; rfl)
      exact .inr ⟨d, here, extending⟩
  received d inside committedAt watermark position stage := by
    obtain ⟨c, there, seals⟩ := so.mem inside
    obtain rfl := seals.gate (by rw [stage]; rfl)
    rw [so.accepted]
    exact accounts.received _ there committedAt watermark position stage
  receipts := by
    rw [so.receipts, so.accepted]
    exact accounts.receipts
  answered d inside outcome has := by
    obtain ⟨c, there, seals⟩ := so.mem inside
    obtain ⟨x, mem, answers, all⟩ := accounts.answered c there outcome (seals.outcome has)
    obtain ⟨source, batch, rows⟩ := seals.same_call
    refine ⟨x, so.accepted ▸ mem, ⟨?_, answers.accepted, answers.committedAt, answers.watermark, ?_⟩,
      fun row there => keeps row (all row there)⟩
    · rw [source, batch]
      exact answers.batch
    · rw [rows]
      exact answers.own

end

section
variable {node : Node} {s t : State} {m : Memory} {kept : List Wal.Frame} {row : EventRow}

theorem Stands.keeps (stands : Stands node s row) (stays : ∀ r, InSegment s r → InSegment t r) : Stands node t row :=
  stands.imp fun r both => ⟨stays r both.1, both.2⟩

theorem Buffered.drained {checkpoint : Nat} {segmentIds : List Id} (buffered : Buffered m checkpoint)
    (some : m.openRows ≠ []) (length : segmentIds.length = m.openProjects.entries.length) :
    Batched (m.drain segmentIds).1 checkpoint (m.drain segmentIds).2 where
  covered := buffered.covered
  ordered := by
    have behind := buffered.behind
    simp only [Memory.drain]
    omega
  through := rfl
  started := buffered.started some
  sealing := ⟨⟨segmentIds, m.openRows, m.addresses⟩, by simp [Memory.drain], rfl⟩
  planned := mem_plan_drain buffered.projects length

theorem mem_sealedSegment {batch : Drained} (id : Id) (inside : row ∈ batch.rows) :
    row ∈ (sealedSegment node batch (projectOf row, id)).2 := by
  simp only [sealedSegment, projectRows]
  split
  · exact inside
  · exact List.mem_filter.mpr ⟨inside, by simp⟩

theorem Running.turned {Ends : Except StoreError (Option Id) → Prop} (running : Running node s m kept)
    (so : Aside Ends s t) (checkpoint : t.checkpoint = s.checkpoint)
    (batch : ∀ b, t.batch = some b → s.batch = some b) : Running node t m kept where
  journal := checkpoint ▸ running.journal
  buffered := checkpoint ▸ running.buffered
  batched b found := checkpoint ▸ running.batched b (batch b found)
  flights d inside := by
    obtain ⟨c, there, seals⟩ := so.mem inside
    exact seals.inFlight (running.flights c there)

theorem Secure.turned (secure : Secure node s m kept row) (stays : ∀ r, InSegment s r → InSegment t r)
    (batch : ∀ b, s.batch = some b → t.batch = some b ∨ b.rows = []) : Secure node t m kept row := by
  cases secure with
  | live stands => exact .live (stands.keeps stays)
  | opened holds framed => exact .opened holds framed
  | sealing b drained holds framed =>
    rcases batch b drained with still | empty
    · exact .sealing b still holds framed
    · obtain ⟨r, inside, -⟩ := holds
      rw [empty] at inside
      cases inside

theorem InFlight.lower {m' : Memory} {c : Commit} (flight : InFlight node m kept c)
    (wal : m'.wal = m.wal) (lower : m'.openFrom ≤ m.openFrom) : InFlight node m' kept c := by
  unfold InFlight at flight ⊢
  rw [wal]
  split at flight
  · exact ⟨flight.1, fun call found => ⟨(flight.2 call found).1, fun p held =>
      lower.trans ((flight.2 call found).2 p held)⟩⟩
  · exact ⟨flight.1, lower.trans flight.2.1, flight.2.2⟩
  · exact ⟨flight.1, lower.trans flight.2.1, flight.2.2⟩
  · trivial

/-- A batch goes back in front of the open buffer, and the frames of both are still
above the position the buffer now starts from. -/
theorem Running.reopened {Ends : Except StoreError (Option Id) → Prop} {batch : Drained} {now : Int}
    (running : Running node s m kept) (so : Aside Ends s t) (drained : s.batch = some batch)
    (stays : ∀ r, InSegment s r → InSegment t r) (checkpoint : t.checkpoint = s.checkpoint) (settled : t.batch = none) :
    Running node t (m.reopen batch now) kept ∧
      ∀ row, Secure node s m kept row → Secure node t (m.reopen batch now) kept row := by
  have batched := running.batched batch drained
  constructor
  · refine ⟨checkpoint ▸ running.journal, checkpoint ▸ ⟨batched.covered, ?_, ?_, ?_⟩, ?_, ?_⟩
    · exact batched.ordered.trans running.buffered.behind
    · exact fun _ => batched.started
    · intro row inside
      rcases mem_append.mp inside with mine | old
      · exact mem_withProjects (.inl mine)
      · exact mem_withProjects (.inr (running.buffered.projects row old))
    · rw [settled]
      rintro b ⟨⟩
    · intro d inside
      obtain ⟨c, there, seals⟩ := so.mem inside
      exact (seals.inFlight (running.flights c there)).lower rfl batched.ordered
  · intro row secure
    cases secure with
    | live stands => exact .live (stands.keeps stays)
    | opened holds framed =>
      exact .opened (holds.mono fun r inside => mem_append_right _ inside)
        (framed.mono batched.ordered fun f inside _ => inside)
    | sealing b found holds framed =>
      rw [drained] at found
      cases found
      exact .opened (holds.mono fun r inside => mem_append_left _ inside) framed

/-- The rows of a published batch are in its segments, and the checkpoint moves no
further than the open buffer starts. -/
theorem Running.published {batch : Drained} {segments : List Written} {catalog : Catalog}
    {holder : Seal} {written : Option Id} (shelved : Shelved node s) (running : Running node s m kept)
    (turn : s.turn = some holder) (stage : holder.stage = .writing batch segments [])
    (published : s.catalog.publishSealed (segments.map Prod.fst)
      (locatorFor node.hash node.floatText segments) (min (batch.range.2 + 1) (2 ^ 64 - 1)) =
        some catalog)
    (stays : ∀ r, InSegment s r → InSegment
      { s with catalog, turn := some { holder with stage := .published batch written } } r) :
    let t := { s with catalog, turn := some { holder with stage := .published batch written } }
    Running node t m kept ∧ ∀ row, Secure node s m kept row → Secure node t m kept row := by
  have drained : s.batch = some batch := by rw [State.batch_eq turn, stage]; rfl
  have batched := running.batched batch drained
  obtain ⟨-, -, moved⟩ := Catalog.publish_receipts published
  have checkpoint : catalog.logCheckpoint.getD 0 =
      max (min (batch.range.2 + 1) (2 ^ 64 - 1)) s.checkpoint := by
    rw [moved]
    rfl
  have covered := running.buffered.covered
  have through := batched.through
  have raised : s.checkpoint ≤ catalog.logCheckpoint.getD 0 := by rw [checkpoint]; omega
  constructor
  · refine ⟨⟨running.journal.clean, fun r inside => ?_⟩, ⟨?_, running.buffered.behind,
      running.buffered.started, running.buffered.projects⟩, ?_, running.flights⟩
    · exact (running.journal.reclaims r inside).trans_le raised
    · show catalog.logCheckpoint.getD 0 ≤ m.openFrom
      rw [checkpoint]
      omega
    · rintro b ⟨⟩
  · intro row secure
    cases secure with
    | live stands => exact .live (stands.keeps stays)
    | opened holds framed => exact .opened holds framed
    | sealing b found holds framed =>
      rw [drained] at found
      cases found
      obtain ⟨r, inside, same⟩ := holds
      obtain ⟨id, planned⟩ := batched.planned r inside
      obtain ⟨plan, filed⟩ := shelved.planned holder batch segments [] turn stage
      have mem : sealedSegment node batch (projectOf r, id) ∈ segments := by
        rw [plan]
        exact mem_map.mpr ⟨_, planned, rfl⟩
      have distinct : (segments.map fun w => w.1.segmentId).Nodup := by
        have mine := (List.nodup_append.mp shelved.distinct).1
        rwa [State.sealClaims, turn, Option.elim, stage] at mine
      refine .live ⟨r, shelved.stored_new published distinct mem (by simp [sealedSegment, describe]) ?_
        (mem_sealedSegment id inside), same⟩
      rcases filed.filed _ mem with later | done
      · cases later
      · exact done

theorem Running.logged {Ends : Except StoreError (Option Id) → Prop} {e : Wal.Event} {wal : Wal.State}
    (running : Running node s m kept) (so : Aside Ends s t)
    (ran : walStep node m.wal e = some wal) (whole : e.whole = true) (fits : Wal.PayloadFits m.wal e)
    (bound : ∀ through fault, e = .reclaim through fault → through < s.checkpoint)
    (stays : ∀ r, InSegment s r → InSegment t r) (checkpoint : t.checkpoint = s.checkpoint)
    (batch : t.batch = s.batch) : ∃ kept', Running node t { m with wal } kept' ∧
      ∀ row, Secure node s m kept row → Secure node t { m with wal } kept' row := by
  obtain ⟨kept', journal, keeps⟩ := running.journal.step ran whole fits bound
  have later := (Wal.step_onward ran).nextPosition
  have covered := running.buffered.covered
  refine ⟨kept', ⟨checkpoint ▸ journal, checkpoint ▸ ⟨covered, running.buffered.behind.trans later,
    fun some => (running.buffered.started some).trans_le later, running.buffered.projects⟩, ?_, ?_⟩, ?_⟩
  · intro b found
    have batched := running.batched b (batch ▸ found)
    exact checkpoint ▸ ⟨batched.covered, batched.ordered, batched.through,
      batched.started.trans_le later, batched.sealing, batched.planned⟩
  · intro d inside
    obtain ⟨c, there, seals⟩ := so.mem inside
    exact seals.inFlight ((running.flights c there).step covered ran keeps)
  · intro row secure
    cases secure with
    | live stands => exact .live (stands.keeps stays)
    | opened holds framed =>
      exact .opened holds (framed.mono (le_refl _) fun f inside above =>
        keeps f inside (covered.trans above))
    | sealing b found holds framed =>
      have bounded := (running.batched b found).covered
      exact .sealing b (batch.trans found) holds (framed.mono (le_refl _) fun f inside above =>
        keeps f inside (bounded.trans above))

theorem Running.sealing {e : SealEvent} (shelved : Shelved node s) (running : Running node s m kept)
    (up : s.up = some m) (allowed : KeepsSegments s (.sealing e)) (next : step node s (.sealing e) = some t) :
    ∃ m' kept', t.up = some m' ∧ Running node t m' kept' ∧
      ∀ row, Secure node s m kept row → Secure node t m' kept' row := by
  have stays := (shelved.sealing allowed next).2
  have so := step_aside rfl next
  obtain ⟨m', holder, up', turn, moved⟩ := step_sealing next
  obtain rfl : m = m' := Option.some.inj (up.symm.trans up')
  have before := State.batch_eq turn
  cases moved with
  | stops _ result settled ends =>
    rw [SealStage.unpublished_of_listed settled] at before
    refine ⟨m, kept, up, running.turned so rfl (by rintro b ⟨⟩), fun row secure =>
      secure.turned stays ?_⟩
    rw [before]
    rintro b ⟨⟩
  | checked stage =>
    rw [stage] at before
    refine ⟨m, kept, up, running.turned so rfl (by rintro b ⟨⟩), fun row secure =>
      secure.turned stays ?_⟩
    rw [before]
    rintro b ⟨⟩
  | drained segmentIds stage free rows length =>
    rw [stage] at before
    have covered := running.buffered.covered
    have behind := running.buffered.behind
    have started := running.buffered.started rows
    refine ⟨_, kept, rfl, ⟨running.journal, ⟨?_, ?_, fun some => absurd rfl some, by rintro row ⟨⟩⟩,
      ?_, ?_⟩, ?_⟩
    · show s.checkpoint ≤ m.wal.shared.nextPosition - 1 + 1
      omega
    · show m.wal.shared.nextPosition - 1 + 1 ≤ m.wal.shared.nextPosition
      omega
    · rintro b ⟨⟩
      exact running.buffered.drained rows length
    · exact fun c inside => inFlight_of_idle (free c inside)
    · intro row secure
      cases secure with
      | live stands => exact .live (stands.keeps stays)
      | opened holds framed => exact .sealing _ rfl holds framed
      | sealing b found holds framed =>
        rw [before] at found
        cases found
  | emptied now batch stage nothing =>
    rw [stage] at before
    refine ⟨m, kept, up, running.turned so rfl (by rintro b ⟨⟩), fun row secure =>
      secure.turned stays fun b found => .inr ?_⟩
    obtain rfl : batch = b := Option.some.inj (before.symm.trans found)
    refine eq_nil_iff_forall_not_mem.mpr fun r inside => ?_
    obtain ⟨id, planned⟩ := (running.batched batch found).planned r inside
    rw [nothing] at planned
    cases planned
  | built now batch stage =>
    rw [stage] at before
    refine ⟨m, kept, up, running.turned so rfl (fun b found => before.trans found), fun row secure =>
      secure.turned stays fun b found => .inl (before.symm.trans found)⟩
  | wrote batch segments w left stage =>
    rw [stage] at before
    refine ⟨m, kept, up, running.turned so rfl (fun b found => before.trans found), fun row secure =>
      secure.turned stays fun b found => .inl (before.symm.trans found)⟩
  | published batch segments catalog stage published =>
    obtain ⟨again, secures⟩ := running.published shelved turn stage published stays
    exact ⟨m, kept, up, again, secures⟩
  | reopened _ batch error now stage ends =>
    rw [stage] at before
    obtain ⟨again, secures⟩ := @Running.reopened node s _ m kept _ batch now running so before stays
      rfl rfl
    exact ⟨_, kept, rfl, again, secures⟩
  | dropped batch written stage =>
    rw [stage] at before
    refine ⟨_, kept, rfl, ⟨running.journal, ⟨running.buffered.covered, running.buffered.behind,
      running.buffered.started, running.buffered.projects⟩, by rintro b ⟨⟩,
      fun c inside => (running.flights c inside).lower rfl (le_refl _)⟩, fun row secure => ?_⟩
    cases secure with
    | live stands => exact .live (stands.keeps stays)
    | opened holds framed => exact .opened holds framed
    | sealing b found holds framed =>
      rw [before] at found
      cases found
  | reclaims written fault wal stage positive ran =>
    rw [stage] at before
    obtain ⟨kept', again, secures⟩ := running.logged so ran rfl trivial (by
      rintro through _ ⟨⟩
      exact Nat.sub_lt positive Nat.one_pos) stays rfl before.symm
    exact ⟨_, kept', rfl, again, secures⟩

theorem Running.aside {e : Event} (shelved : Shelved node s) (running : Running node s m kept)
    (up : s.up = some m) (aside : e.aside = true) (allowed : KeepsSegments s e) (next : step node s e = some t) :
    ∃ m' kept', t.up = some m' ∧ Running node t m' kept' ∧
      ∀ row, Secure node s m kept row → Secure node t m' kept' row := by
  have stays := (shelved.step allowed next).2
  have so := step_aside aside next
  have still : t.up = s.up → t.turn = s.turn → t.checkpoint = s.checkpoint →
      ∃ m' kept', t.up = some m' ∧ Running node t m' kept' ∧
        ∀ row, Secure node s m kept row → Secure node t m' kept' row := by
    intro same turn checkpoint
    have batch : t.batch = s.batch := by rw [State.batch, State.batch, turn]
    exact ⟨m, kept, same.trans up, running.turned so checkpoint fun b found => batch ▸ found,
      fun row secure => secure.turned stays fun b found => .inl (batch.trans found)⟩
  cases e with
  | openLog => cases aside
  | recordCheckpoint => cases aside
  | openWith now => cases aside
  | crash => cases aside
  | commit sourceId batchId rows => cases aside
  | call i e => cases aside
  | sealing e => exact running.sealing shelved up allowed next
  | log e =>
    obtain ⟨m', up', more⟩ := Option.bind_eq_some_iff.mp next
    obtain rfl : m = m' := Option.some.inj (up.symm.trans up')
    split at more
    · rename_i own
      obtain ⟨wal, ran, same⟩ := Option.bind_eq_some_iff.mp more
      cases same
      obtain ⟨whole, fits, enters⟩ := ofLog_inner own m.wal
      obtain ⟨kept', again, secures⟩ := running.logged so ran whole fits
        (fun through fault same => absurd same (enters through fault)) stays rfl rfl
      exact ⟨_, kept', rfl, again, secures⟩
    · cases more
  | sealStart owner =>
    obtain ⟨m', up', more⟩ := Option.bind_eq_some_iff.mp next
    have begins : s.turn = none → t.up = s.up → t.checkpoint = s.checkpoint → t.batch = none →
        ∃ m' kept', t.up = some m' ∧ Running node t m' kept' ∧
          ∀ row, Secure node s m kept row → Secure node t m' kept' row := by
      intro free same checkpoint none
      refine ⟨m, kept, same.trans up, running.turned so checkpoint (by rw [none]; rintro b ⟨⟩),
        fun row secure => secure.turned stays ?_⟩
      rw [State.batch, free]
      rintro b ⟨⟩
    split at more
    · cases more
      exact begins ‹_› rfl rfl rfl
    · split at more
      · cases more
        exact begins ‹_› rfl rfl rfl
      · cases more
    · cases more
  | install segment =>
    obtain ⟨m', up', more⟩ := Option.bind_eq_some_iff.mp next
    split at more
    · cases more
      exact still rfl rfl rfl
    · cases more
      exact still rfl rfl rfl
  | installWrite k =>
    obtain ⟨m', up', more⟩ := Option.bind_eq_some_iff.mp next
    obtain ⟨install, -, same⟩ := Option.bind_eq_some_iff.mp more
    cases same
    exact still rfl rfl rfl
  | installPublish k =>
    obtain ⟨m', up', more⟩ := Option.bind_eq_some_iff.mp next
    obtain ⟨install, -, same⟩ := Option.bind_eq_some_iff.mp more
    split at same
    · obtain ⟨catalog, published, last⟩ := Option.bind_eq_some_iff.mp same
      cases last
      exact still rfl rfl (congrArg (Option.getD · 0) (Catalog.publish_receipts published).2.2)
    · cases same
  | swap retire replacements =>
    obtain ⟨m', up', more⟩ := Option.bind_eq_some_iff.mp next
    split at more
    · cases more
      exact still rfl rfl rfl
    · cases more
      exact still rfl rfl rfl
  | swapWrite k =>
    obtain ⟨m', up', more⟩ := Option.bind_eq_some_iff.mp next
    split at more
    · cases more
      exact still rfl rfl rfl
    · cases more
  | swapPublish k =>
    obtain ⟨m', up', more⟩ := Option.bind_eq_some_iff.mp next
    split at more
    · obtain ⟨catalog, published, last⟩ := Option.bind_eq_some_iff.mp more
      cases last
      exact still rfl rfl (congrArg (Option.getD · 0) (Catalog.publish_receipts published).2.2)
    · cases more
  | consolidate k bucket =>
    obtain ⟨m', up', more⟩ := Option.bind_eq_some_iff.mp next
    split at more
    · obtain ⟨catalog, done, last⟩ := Option.bind_eq_some_iff.mp more
      cases last
      obtain ⟨runs, rfl⟩ := Catalog.consolidate_runs done
      exact still rfl rfl rfl
    · cases more

end

/-- The watermark of the receipt a call has stored, until its rows are in the open buffer. -/
def CommitStage.extending : CommitStage → Option Nat
  | .received _ watermark _ => some watermark
  | _ => none

/-- The stretches of a commit under which an answer is about rows the store has: a
lookup does not find a receipt whose own call has not yet extended the open buffer, and
the frame's length field takes the payload. -/
def Prompt (node : Node) (s : State) (c : Commit) : CallEvent → Prop
  | .lookup now => InI64 now ∧ ∀ prior ∈ s.catalog.receipt c.sourceId c.batchId,
      ∀ d ∈ s.commits, d.key = c.key → d.stage.extending ≠ some prior.commitWatermark
  | .append => (encodeRows node.floatText c.rows).length < 2 ^ 32
  | _ => True

instance (node : Node) (s : State) (c : Commit) (e : CallEvent) : Decidable (Prompt node s c e) :=
  match e with
  | .lookup now => inferInstanceAs (Decidable (InI64 now ∧
      ∀ prior ∈ s.catalog.receipt c.sourceId c.batchId, ∀ d ∈ s.commits, d.key = c.key →
        d.stage.extending ≠ some prior.commitWatermark))
  | .append => inferInstanceAs (Decidable (_ < _))
  | .noRoom _ | .allocate | .appended | .receipt | .receiptFails _ | .extend _ =>
      inferInstanceAs (Decidable True)

def Orderly (node : Node) (s : State) (e : Event) : Prop :=
  KeepsSegments s e ∧
    match e with
    | .commit _ _ rows => RowsFit node rows
    | .call i e => ∀ c ∈ s.commits[i]?, Prompt node s c e
    | _ => True

instance (node : Node) (s : State) (e : Event) : Decidable (Orderly node s e) :=
  match e with
  | .commit _ _ rows => inferInstanceAs (Decidable (_ ∧ RowsFit node rows))
  | .call i e => inferInstanceAs (Decidable (_ ∧ ∀ c ∈ s.commits[i]?, Prompt node s c e))
  | .openLog | .recordCheckpoint | .openWith _ | .crash | .log _ | .sealStart _ | .sealing _
  | .install _ | .installWrite _ | .installPublish _ | .swap _ _ | .swapWrite _ | .swapPublish _
  | .consolidate _ _ => inferInstanceAs (Decidable (_ ∧ True))

section
variable {node : Node} {s t : State} {m m' : Memory} {kept kept' : List Wal.Frame}
  {c d : Commit} {i : Nat}

theorem Secure.moved {row : EventRow} (secure : Secure node s m kept row)
    (catalog : t.catalog.segments = s.catalog.segments) (files : t.files = s.files)
    (turn : t.turn = s.turn) (rows : ∀ r ∈ m.openRows, r ∈ m'.openRows) (first : m'.openFrom = m.openFrom)
    (stays : ∀ f ∈ kept, s.checkpoint ≤ f.position → f ∈ kept')
    (running : Running node s m kept) : Secure node t m' kept' row := by
  have batch : t.batch = s.batch := by rw [State.batch, State.batch, turn]
  cases secure with
  | live stands => exact .live (stands.keeps fun r stored => stored.kept catalog files)
  | opened holds framed =>
    refine .opened (holds.mono rows) (framed.mono first.le fun f inside above => ?_)
    exact stays f inside (running.buffered.covered.trans above)
  | sealing b found holds framed =>
    refine .sealing b (batch.trans found) holds (framed.mono (le_refl _) fun f inside above => ?_)
    exact stays f inside ((running.batched b found).covered.trans above)

theorem Accounts.call {safe safe' : EventRow → Prop} (accounts : Accounts s safe)
    (here : s.commits[i]? = some c) (commits : t.commits = s.commits.set i d)
    (accepted : t.accepted = s.accepted) (receipts : t.catalog.receipts = s.catalog.receipts)
    (keeps : ∀ row, safe row → safe' row) (before : c.stage.extending = none) (after : d.stage.extending = none)
    (answered : ∀ outcome, d.stage.outcome = some outcome →
      ∃ x ∈ s.accepted, Answers x d outcome ∧ ∀ row ∈ x.2, safe row) : Accounts t safe' where
  accepted x inside := by
    rw [accepted] at inside
    rcases accounts.accepted x inside with all | ⟨e, there, extending⟩
    · exact .inl fun row mem => keeps row (all row mem)
    · refine .inr ⟨e, commits ▸ mem_set_of_mem there here ?_, extending⟩
      rintro rfl
      rw [extending.1] at before
      cases before
  received e inside committedAt watermark position stage := by
    rw [commits] at inside
    rw [accepted]
    rcases mem_or_eq_of_mem_set inside with old | rfl
    · exact accounts.received e old committedAt watermark position stage
    · rw [stage] at after
      cases after
  receipts := by
    rw [receipts, accepted]
    exact accounts.receipts
  answered e inside outcome has := by
    rw [commits] at inside
    rw [accepted]
    have found : ∃ x ∈ s.accepted, Answers x e outcome ∧ ∀ row ∈ x.2, safe row := by
      rcases mem_or_eq_of_mem_set inside with old | rfl
      · exact accounts.answered e old outcome has
      · exact answered outcome has
    obtain ⟨x, mem, answers, all⟩ := found
    exact ⟨x, mem, answers, fun row there => keeps row (all row there)⟩

theorem Running.call (running : Running node s m kept) (commits : t.commits = s.commits.set i d)
    (turn : t.turn = s.turn) (checkpoint : t.checkpoint = s.checkpoint)
    (journal : Journal node m'.wal kept' s.checkpoint)
    (later : m.wal.shared.nextPosition ≤ m'.wal.shared.nextPosition)
    (first : m'.openFrom = m.openFrom) (sealing : m'.sealing = m.sealing)
    (started : m'.openRows ≠ [] → 0 < m'.wal.shared.nextPosition)
    (projects : ∀ row ∈ m'.openRows, (projectOf row, ()) ∈ m'.openProjects.entries)
    (flights : ∀ e ∈ s.commits, InFlight node m' kept' e) (own : InFlight node m' kept' d) :
    Running node t m' kept' where
  journal := checkpoint ▸ journal
  buffered := by
    have buffered := running.buffered
    rw [checkpoint]
    exact ⟨first ▸ buffered.covered, first ▸ buffered.behind.trans later, started, projects⟩
  batched b found := by
    have batched := running.batched b (by rwa [State.batch, turn] at found)
    rw [checkpoint]
    exact ⟨batched.covered, first ▸ batched.ordered, first ▸ batched.through,
      batched.started.trans_le later, sealing ▸ batched.sealing, batched.planned⟩
  flights e inside := by
    rw [commits] at inside
    rcases mem_or_eq_of_mem_set inside with old | rfl
    · exact flights e old
    · exact own

theorem Accounts.receipt {safe : EventRow → Prop} {prior : Receipt} (accounts : Accounts s safe)
    (found : s.catalog.receipt c.sourceId c.batchId = some prior)
    (extended : ∀ d ∈ s.commits, d.key = c.key → d.stage.extending ≠ some prior.commitWatermark) :
    ∃ x ∈ s.accepted, x.1 = prior ∧ (x.1.sourceId = c.sourceId ∧ x.1.batchId = c.batchId) ∧ ∀ row ∈ x.2, safe row := by
  obtain ⟨key, rows, inside⟩ := accounts.receipts _ (get?_eq_some.mp found)
  simp only [toLex_inj, Prod.mk.injEq] at key
  refine ⟨_, inside, rfl, ⟨key.1.symm, key.2.symm⟩, ?_⟩
  rcases accounts.accepted _ inside with all | ⟨d, there, stage, source, batch, -⟩
  · exact all
  · refine absurd (congrArg CommitStage.extending stage) (extended d there ?_)
    rw [Commit.key, Commit.key, source, batch, key.1, key.2]

theorem Running.told {committedAt : Int} {watermark frame position : Nat} {payload : Bytes}
    (running : Running node s m kept) (inside : c ∈ s.commits)
    (stage : c.stage = .appending committedAt watermark frame)
    (told : m.wal.calls[frame]? = some ⟨payload, .returned (.ok position)⟩) :
    ⟨position, encodeRows node.floatText c.rows⟩ ∈ kept ∧ m.openFrom ≤ position ∧
      position < m.wal.shared.nextPosition := by
  have flight := running.flights c inside
  rw [InFlight, stage] at flight
  obtain ⟨same, above⟩ := flight.2 _ told
  obtain ⟨flying, waiting, clean⟩ := running.journal.clean
  have low := above position rfl
  refine ⟨?_, low, clean.inv.ledger.numbered frame _ told position rfl⟩
  rw [← same]
  refine clean.inv.told told fun r there => ?_
  exact (running.journal.reclaims r there).trans_le (running.buffered.covered.trans low)

theorem Accounts.received_receipt {safe safe' : EventRow → Prop} {committedAt : Int}
    {watermark position : Nat} (accounts : Accounts s safe) (here : s.commits[i]? = some c)
    (stage : c.stage = .logged committedAt watermark position) (keeps : ∀ row, safe row → safe' row) :
    Accounts { s with
      catalog := s.catalog.commitReceipt
        ⟨c.sourceId, c.batchId, c.rows.length, committedAt, watermark, position⟩
      accepted := s.accepted ++
        [(⟨c.sourceId, c.batchId, c.rows.length, committedAt, watermark, position⟩, c.rows)]
      commits := s.commits.set i (c.goes (.received committedAt watermark position)) } safe' where
  accepted x inside := by
    rcases mem_append.mp inside with old | new
    · rcases accounts.accepted x old with all | ⟨e, there, extending⟩
      · exact .inl fun row mem => keeps row (all row mem)
      · refine .inr ⟨e, mem_set_of_mem there here ?_, extending⟩
        rintro rfl
        cases stage.symm.trans extending.1
    · obtain rfl := mem_singleton.mp new
      exact .inr ⟨_, mem_set (List.getElem?_eq_some_iff.mp here).1 _, rfl, rfl, rfl, rfl⟩
  received e inside committedAt watermark position stage := by
    rcases mem_or_eq_of_mem_set inside with old | rfl
    · exact mem_append_left _ (accounts.received e old committedAt watermark position stage)
    · obtain ⟨rfl, rfl, rfl⟩ := CommitStage.received.inj stage
      exact mem_append_right _ (mem_singleton_self _)
  receipts x inside := by
    rcases mem_insert.mp inside with rfl | ⟨old, -⟩
    · exact ⟨rfl, c.rows, mem_append_right _ (mem_singleton_self _)⟩
    · obtain ⟨key, rows, mem⟩ := accounts.receipts x old
      exact ⟨key, rows, mem_append_left _ mem⟩
  answered e inside outcome has := by
    rcases mem_or_eq_of_mem_set inside with old | rfl
    · obtain ⟨x, mem, answers, all⟩ := accounts.answered e old outcome has
      exact ⟨x, mem_append_left _ mem, answers, fun row there => keeps row (all row there)⟩
    · cases has

theorem Accounts.extended {safe safe' : EventRow → Prop} {committedAt : Int}
    {watermark position : Nat} (accounts : Accounts s safe) (here : s.commits[i]? = some c)
    (stage : c.stage = .received committedAt watermark position) (due : Bool)
    (keeps : ∀ row, safe row → safe' row) (joins : ∀ row ∈ c.rows, safe' row)
    (commits : t.commits = s.commits.set i (c.goes (if due then .due ⟨c.rows.length, committedAt, watermark, false⟩
        else .returned (.ok ⟨c.rows.length, committedAt, watermark, false⟩))))
    (accepted : t.accepted = s.accepted) (receipts : t.catalog.receipts = s.catalog.receipts) : Accounts t safe' where
  accepted x inside := by
    rw [accepted] at inside
    rcases accounts.accepted x inside with all | ⟨e, there, extending⟩
    · exact .inl fun row mem => keeps row (all row mem)
    · by_cases own : e = c
      · subst own
        refine .inl fun row mem => joins row ?_
        rw [extending.2.2.2]
        exact mem
      · exact .inr ⟨e, commits ▸ mem_set_of_mem there here own, extending⟩
  received e inside committedAt watermark position stage := by
    rw [commits] at inside
    rw [accepted]
    rcases mem_or_eq_of_mem_set inside with old | rfl
    · exact accounts.received e old committedAt watermark position stage
    · cases due <;> cases stage
  receipts := by
    rw [receipts, accepted]
    exact accounts.receipts
  answered e inside outcome has := by
    rw [commits] at inside
    rw [accepted]
    rcases mem_or_eq_of_mem_set inside with old | rfl
    · obtain ⟨x, mem, answers, all⟩ := accounts.answered e old outcome has
      exact ⟨x, mem, answers, fun row there => keeps row (all row there)⟩
    · have own := accounts.received c (mem_of_getElem? here) _ _ _ stage
      refine ⟨_, own, ?_, joins⟩
      cases due <;> cases has <;> exact ⟨⟨rfl, rfl⟩, rfl, rfl, rfl, fun _ => rfl⟩

theorem Running.calls {e : CallEvent} (floats : FloatsReadBack node) (fit : RowsFit node c.rows)
    (running : Running node s m kept) (accounts : Accounts s (Secure node s m kept))
    (up : s.up = some m) (here : s.commits[i]? = some c) (prompt : Prompt node s c e)
    {t' : State} (called : Called node s m c e t' d) :
    let t := { t' with commits := s.commits.set i d }
    ∃ m' kept', t.up = some m' ∧ Running node t m' kept' ∧ Accounts t (Secure node t m' kept') := by
  have inside : c ∈ s.commits := mem_of_getElem? here
  -- A stretch that leaves the memory and the receipts alone.
  have quiet : ∀ d : Commit, InFlight node m kept d → c.stage.extending = none →
      d.stage.extending = none → (∀ outcome, d.stage.outcome = some outcome →
        ∃ x ∈ s.accepted, Answers x d outcome ∧ ∀ row ∈ x.2, Secure node s m kept row) →
      ∃ m' kept', { s with commits := s.commits.set i d }.up = some m' ∧
        Running node { s with commits := s.commits.set i d } m' kept' ∧
        Accounts { s with commits := s.commits.set i d }
          (Secure node { s with commits := s.commits.set i d } m' kept') := by
    intro d own before after answered
    exact ⟨m, kept, up, running.call rfl rfl rfl running.journal (le_refl _) rfl rfl
      running.buffered.started running.buffered.projects running.flights own,
      accounts.call here rfl rfl rfl (fun row secure => secure.moved rfl rfl rfl (fun _ r => r) rfl
        (fun f there _ => there) running) before after answered⟩
  cases called with
  | answered now prior begun found =>
    refine quiet _ (inFlight_of_idle rfl) (by rw [begun]; rfl) rfl ?_
    rintro outcome ⟨⟩
    obtain ⟨x, mem, rfl, batch, all⟩ := accounts.receipt found (prompt.2 prior found)
    exact ⟨x, mem, ⟨batch, rfl, rfl, rfl, by rintro ⟨⟩⟩, all⟩
  | stamped now begun new =>
    exact quiet _ (inFlight_of_idle rfl) (by rw [begun]; rfl) rfl (by rintro outcome ⟨⟩)
  | refused message committedAt stage =>
    exact quiet _ (inFlight_of_idle rfl) (by rw [stage]; rfl) rfl (by rintro outcome ⟨⟩)
  | numbered committedAt stage =>
    refine ⟨_, kept, rfl, running.call rfl rfl rfl running.journal (le_refl _) rfl rfl
      running.buffered.started running.buffered.projects
      (fun e there => (running.flights e there).lower rfl (le_refl _)) (inFlight_of_idle rfl),
      accounts.call here rfl rfl rfl (fun row secure => secure.moved rfl rfl rfl (fun _ r => r) rfl
        (fun f there _ => there) running) (by rw [stage]; rfl) rfl (by rintro outcome ⟨⟩)⟩
  | entered committedAt watermark wal stage ran =>
    obtain ⟨kept', journal, stays⟩ := running.journal.step ran rfl prompt (by rintro _ _ ⟨⟩)
    have onward := Wal.step_onward ran
    refine ⟨_, kept', rfl, running.call rfl rfl rfl journal onward.nextPosition rfl rfl
      (fun some => (running.buffered.started some).trans_le onward.nextPosition)
      running.buffered.projects
      (fun e there => (running.flights e there).step running.buffered.covered ran stays)
      ⟨onward.pushed _ rfl, fun call found => ?_⟩,
      accounts.call here rfl rfl rfl (fun row secure => secure.moved rfl rfl rfl (fun _ r => r) rfl
        stays running) (by rw [stage]; rfl) rfl (by rintro outcome ⟨⟩)⟩
    rcases onward.calls _ call found with ⟨old, before, -⟩ | ⟨-, enters, position⟩
    · exact absurd (List.getElem?_eq_some_iff.mp before).1 (lt_irrefl _)
    · refine ⟨(Wal.Event.append.inj enters).symm, fun p held => ?_⟩
      rw [position p held]
      exact running.buffered.behind
  | logged committedAt watermark frame position payload stage told =>
    have known := running.told inside stage told
    exact quiet (c.goes (.logged committedAt watermark position)) known (by rw [stage]; rfl) rfl
      (by rintro outcome ⟨⟩)
  | unlogged committedAt watermark frame e stage =>
    exact quiet _ (inFlight_of_idle rfl) (by rw [stage]; rfl) rfl (by rintro outcome ⟨⟩)
  | unreceived message committedAt watermark position stage =>
    exact quiet _ (inFlight_of_idle rfl) (by rw [stage]; rfl) rfl (by rintro outcome ⟨⟩)
  | received committedAt watermark position stage =>
    have flight := running.flights c inside
    rw [InFlight, stage] at flight
    exact ⟨m, kept, up, running.call rfl rfl rfl running.journal (le_refl _) rfl rfl
      running.buffered.started running.buffered.projects running.flights flight,
      accounts.received_receipt here stage (fun row secure => secure.moved rfl rfl rfl
        (fun _ r => r) rfl (fun f there _ => there) running)⟩
  | extended now committedAt watermark position due stage =>
    have flight := running.flights c inside
    rw [InFlight, stage] at flight
    obtain ⟨framed, above, below⟩ := flight
    refine ⟨_, kept, rfl, running.call rfl rfl rfl running.journal (le_refl _) rfl rfl
      (fun _ => (Nat.zero_le _).trans_lt below) (fun row there => ?_)
      (fun e there => (running.flights e there).lower rfl (le_refl _))
      (inFlight_of_idle (by cases due <;> rfl)), accounts.extended here stage due
        (fun row secure => secure.moved rfl rfl rfl (fun r old => mem_append_left _ old) rfl
          (fun f there _ => there) running) (fun row there => ?_) rfl rfl rfl⟩
    · rcases mem_append.mp there with old | new
      · exact mem_withProjects (.inr (running.buffered.projects row old))
      · exact mem_withProjects (.inl new)
    · exact .opened (shows_of_mem (mem_append_right _ there))
        (framed_encodeRows floats fit framed above there)

end

section
variable {node : Node} {s t : State} {m : Memory} {kept : List Wal.Frame} {now : Int}

theorem Running.crash (floats : FloatsReadBack node) (fit : ∀ c ∈ s.commits, RowsFit node c.rows)
    (running : Running node s m kept) (accounts : Accounts s (Secure node s m kept)) :
    let t := { s with
      log := some m.wal.onDisk, up := none, commits := s.commits.map Commit.dies, turn := none
      installs := [], swaps := [] }
    Resting node t kept ∧ Accounts t (Durable node t kept) := by
  obtain ⟨flying, waiting, clean⟩ := running.journal.clean
  have covered := running.buffered.covered
  have lasts : ∀ row, Secure node s m kept row → Stands node s row ∨
      Framed node kept s.checkpoint row := by
    intro row secure
    cases secure with
    | live stands => exact .inl stands
    | opened holds framed => exact .inr (framed.mono covered fun f inside _ => inside)
    | sealing b found holds framed =>
      exact .inr (framed.mono (running.batched b found).covered fun f inside _ => inside)
  have dies : ∀ c : Commit, c.dies.stage = .lost ∨
      (c.dies = c ∧ ∃ result, c.stage = .returned result) := by
    intro c
    unfold Commit.dies
    split
    · rename_i result stage
      exact .inr ⟨rfl, result, stage⟩
    · exact .inl rfl
  refine ⟨⟨clean.rests, rfl, fun d inside => ?_⟩, ⟨fun x inside => ?_, fun d inside => ?_,
    accounts.receipts, fun d inside outcome has => ?_⟩⟩
  · obtain ⟨c, there, rfl⟩ := mem_map.mp inside
    rcases dies c with lost | ⟨same, result, stage⟩
    · exact .inl lost
    · exact .inr ⟨result, by rw [same, stage]⟩
  · refine .inl fun row there => ?_
    rcases accounts.accepted x inside with all | ⟨c, mem, stage, -, -, rows⟩
    · exact lasts row (all row there)
    · have flight := running.flights c mem
      rw [InFlight, stage] at flight
      exact .inr (framed_encodeRows floats (fit c mem) flight.1 (covered.trans flight.2.1)
        (rows ▸ there))
  · intro committedAt watermark position stage
    obtain ⟨c, there, rfl⟩ := mem_map.mp inside
    rcases dies c with lost | ⟨same, result, returned⟩
    · rw [lost] at stage
      cases stage
    · rw [same, returned] at stage
      cases stage
  · obtain ⟨c, there, rfl⟩ := mem_map.mp inside
    rcases dies c with lost | ⟨same, -⟩
    · rw [lost] at has
      cases has
    · rw [same] at has ⊢
      obtain ⟨x, mem, answers, all⟩ := accounts.answered c there outcome has
      exact ⟨x, mem, answers, fun row there => lasts row (all row there)⟩

theorem checkpoint_le_firstPosition (c : Catalog) : c.logCheckpoint.getD 0 ≤ firstPosition c := by
  simp only [firstPosition]
  split
  · exact le_max_left _ _
  · exact (le_max_left _ _).trans (le_max_left _ _)

theorem Resting.recovered (resting : Resting node s kept) :
    ∃ wal m, openedLog node s = .ok wal ∧ recovered node s.catalog now wal = some m ∧
      m.openRows = replayRows node kept s.checkpoint ∧
      m.openProjects = withProjects ∅ m.openRows ∧ m.openFrom = s.checkpoint ∧
      Wal.Clean node.hash m.wal kept [] [] ∧ m.wal.reclaims = [] ∧ Wal.nextAfter 0 kept ≤ m.wal.shared.nextPosition ∧
      s.checkpoint ≤ m.wal.shared.nextPosition := by
  obtain ⟨wal, opened, clean, calls, reclaims, next⟩ := @Wal.open_rests node.hash node.path kept _
    resting.rests (if s.catalog.watermark.1 > 0 then some s.catalog.watermark.2 else none)
  have read := Wal.recover_whole node.hash node.path true kept resting.rests.1
  obtain ⟨clean', -, reclaims', later, above⟩ :=
    startAtLeast_clean clean calls (firstPosition s.catalog)
  cases made : Segmented.recovered node s.catalog now wal with
  | none => simp [Segmented.recovered, clean.onDisk, read] at made
  | some m =>
    refine ⟨wal, m, opened, made, ?_⟩
    simp only [Segmented.recovered, clean.onDisk, read, Option.some.injEq] at made
    subst made
    exact ⟨rfl, rfl, rfl, clean', reclaims'.trans reclaims, next ▸ later,
      (checkpoint_le_firstPosition _).trans above⟩

theorem Resting.running {m : Memory} (resting : Resting node s kept)
    (rows : m.openRows = replayRows node kept s.checkpoint)
    (projects : m.openProjects = withProjects ∅ m.openRows) (first : m.openFrom = s.checkpoint)
    (clean : Wal.Clean node.hash m.wal kept [] []) (reclaims : m.wal.reclaims = [])
    (numbered : Wal.nextAfter 0 kept ≤ m.wal.shared.nextPosition)
    (behind : s.checkpoint ≤ m.wal.shared.nextPosition) (checkpoint : t.checkpoint = s.checkpoint)
    (turn : t.turn = s.turn) (commits : t.commits = s.commits) : Running node t m kept where
  journal := ⟨⟨[], [], clean⟩, by rw [reclaims]; rintro r ⟨⟩⟩
  buffered := by
    rw [checkpoint]
    refine ⟨first.ge, first.le.trans behind, fun some => lt_of_lt_of_le ?_ numbered, ?_⟩
    · refine Wal.nextAfter_pos (.inl ?_)
      rintro rfl
      exact some rows
    · rw [projects]
      exact fun row inside => mem_withProjects (.inl inside)
  batched b found := by
    rw [State.batch, turn, resting.idle] at found
    cases found
  flights c inside := by
    rw [commits] at inside
    refine inFlight_of_idle ?_
    rcases resting.settled c inside with lost | ⟨result, stage⟩
    · rw [lost]
      rfl
    · rw [stage]
      rfl

theorem Accounts.mono {safe safe' : EventRow → Prop} (accounts : Accounts s safe)
    (commits : t.commits = s.commits) (accepted : t.accepted = s.accepted)
    (receipts : t.catalog.receipts = s.catalog.receipts) (keeps : ∀ row, safe row → safe' row) : Accounts t safe' where
  accepted x inside := by
    rw [accepted] at inside
    rw [commits]
    rcases accounts.accepted x inside with all | extending
    · exact .inl fun row there => keeps row (all row there)
    · exact .inr extending
  received := by
    rw [commits, accepted]
    exact accounts.received
  receipts := by
    rw [receipts, accepted]
    exact accounts.receipts
  answered c inside outcome has := by
    rw [commits] at inside
    obtain ⟨x, mem, answers, all⟩ := accounts.answered c inside outcome has
    exact ⟨x, accepted ▸ mem, answers, fun row there => keeps row (all row there)⟩

theorem Accounts.pushed {safe safe' : EventRow → Prop} {sourceId batchId : Id} {rows : List EventRow}
    (accounts : Accounts s safe) (keeps : ∀ row, safe row → safe' row) :
    Accounts { s with commits := s.commits ++ [⟨sourceId, batchId, rows, .begun⟩] } safe' where
  accepted x inside := by
    rcases accounts.accepted x inside with all | ⟨c, there, extending⟩
    · exact .inl fun row mem => keeps row (all row mem)
    · exact .inr ⟨c, mem_append_left _ there, extending⟩
  received c inside committedAt watermark position stage := by
    rcases mem_append.mp inside with old | new
    · exact accounts.received c old committedAt watermark position stage
    · obtain rfl := mem_singleton.mp new
      cases stage
  receipts := accounts.receipts
  answered c inside outcome has := by
    rcases mem_append.mp inside with old | new
    · obtain ⟨x, mem, answers, all⟩ := accounts.answered c old outcome has
      exact ⟨x, mem, answers, fun row there => keeps row (all row there)⟩
    · obtain rfl := mem_singleton.mp new
      cases has

theorem Called.fit {c d : Commit} {e : CallEvent} {t' : State} (called : Called node s m c e t' d)
    (fit : RowsFit node c.rows) (prompt : Prompt node s c e) : RowsFit node d.rows := by
  cases called with
  | stamped now begun new =>
    refine ⟨by simpa [stamp] using fit.many, fun row inside => ?_⟩
    obtain ⟨r, there, rfl⟩ := mem_map.mp inside
    exact { fit.each r there with committedAt := prompt.1 }
  | _ => exact fit

theorem Held.empty : Held node .empty where
  shelved := Shelved.empty
  fit := by simp [State.empty]
  up := by simp [State.empty]
  down _ := by
    refine ⟨[], ⟨⟨by simp, .inl ⟨rfl, rfl⟩⟩, rfl, by simp [State.empty]⟩, ?_⟩
    exact ⟨by simp [State.empty], by simp [State.empty], by simp [State.empty, Catalog.empty],
      by simp [State.empty]⟩

theorem Held.opens (held : Held node s) (down : s.up = none) : ∃ t, step node s (.openWith now) = some t := by
  obtain ⟨kept, resting, -⟩ := held.down down
  obtain ⟨wal, m, opened, made, -⟩ := @Resting.recovered node s kept now resting
  exact ⟨_, by simp only [step, down, opened, made]; rfl⟩

theorem step_up {e : Event} (aside : e.aside = true) (next : step node s e = some t) : ∃ m, s.up = some m := by
  cases e <;>
    first
    | exact (Option.bind_eq_some_iff.mp next).imp fun m both => both.1
    | cases aside

theorem Held.step {e : Event} (floats : FloatsReadBack node) (held : Held node s)
    (allowed : Orderly node s e) (next : step node s e = some t) : Held node t := by
  obtain ⟨segments, own⟩ := allowed
  obtain ⟨shelved, stays⟩ := held.shelved.step segments next
  by_cases aside : e.aside = true
  · have so := step_aside aside next
    obtain ⟨m, up⟩ := step_up aside next
    obtain ⟨kept, running, accounts⟩ := held.up m up
    obtain ⟨m', kept', up', again, secures⟩ := running.aside held.shelved up aside segments next
    refine ⟨shelved, fun d inside => ?_, fun other here => ?_, fun down => ?_⟩
    · obtain ⟨c, there, seals⟩ := so.mem inside
      rw [seals.same_call.2.2]
      exact held.fit c there
    · obtain rfl := Option.some.inj (up'.symm.trans here)
      exact ⟨kept', again, accounts.aside so secures⟩
    · rw [up'] at down
      cases down
  cases e with
  | openLog =>
    simp only [Segmented.step] at next
    split at next
    · rename_i down opened
      cases next
      refine ⟨shelved, held.fit, fun m up => ?_, fun _ => ?_⟩
      · rw [down] at up
        cases up
      · obtain ⟨kept, resting, accounts⟩ := held.down down
        obtain ⟨wal, again, clean, -⟩ := @Wal.open_rests node.hash node.path kept _ resting.rests
          (if s.catalog.watermark.1 > 0 then some s.catalog.watermark.2 else none)
        obtain rfl := Except.ok.inj (opened.symm.trans again)
        exact ⟨kept, ⟨clean.rests, resting.idle, resting.settled⟩,
          accounts.mono rfl rfl rfl fun row durable => durable⟩
    · cases next
  | recordCheckpoint =>
    simp only [Segmented.step] at next
    split at next
    · rename_i down
      cases next
      refine ⟨shelved, held.fit, fun m up => ?_, fun _ => ?_⟩
      · rw [down] at up
        cases up
      · obtain ⟨kept, resting, accounts⟩ := held.down down
        exact ⟨kept, ⟨resting.rests, resting.idle, resting.settled⟩,
          accounts.mono rfl rfl rfl fun row durable => durable⟩
    · cases next
  | openWith now =>
    simp only [Segmented.step] at next
    split at next
    · rename_i down opened
      obtain ⟨kept, resting, accounts⟩ := held.down down
      obtain ⟨wal, m, again, made, rows, projects, first, clean, reclaims, numbered, behind⟩ :=
        @Resting.recovered node s kept now resting
      obtain rfl := Except.ok.inj (opened.symm.trans again)
      obtain ⟨m', made', same⟩ := Option.bind_eq_some_iff.mp next
      obtain rfl := Option.some.inj (made.symm.trans made')
      cases same
      refine ⟨shelved, held.fit, ?_, by rintro ⟨⟩⟩
      rintro _ ⟨⟩
      refine ⟨kept, resting.running rows projects first clean reclaims numbered behind rfl rfl rfl,
        accounts.mono rfl rfl rfl ?_⟩
      rintro row (stands | framed)
      · exact .live (stands.keeps stays)
      · exact .opened (rows ▸ shows_replayRows framed) (first ▸ framed)
    · cases next
  | crash =>
    obtain ⟨m, up, same⟩ := Option.bind_eq_some_iff.mp next
    cases same
    obtain ⟨kept, running, accounts⟩ := held.up m up
    refine ⟨shelved, fun d inside => ?_, by rintro _ ⟨⟩, fun _ => ?_⟩
    · obtain ⟨c, there, rfl⟩ := mem_map.mp inside
      have rows : c.dies.rows = c.rows := by
        unfold Commit.dies
        split <;> rfl
      rw [rows]
      exact held.fit c there
    · exact ⟨kept, running.crash floats held.fit accounts⟩
  | commit sourceId batchId rows =>
    obtain ⟨m, up, same⟩ := Option.bind_eq_some_iff.mp next
    cases same
    obtain ⟨kept, running, accounts⟩ := held.up m up
    have joined : ∀ c ∈ s.commits ++ [⟨sourceId, batchId, rows, .begun⟩],
        c ∈ s.commits ∨ c = ⟨sourceId, batchId, rows, .begun⟩ := by
      intro c inside
      exact (mem_append.mp inside).imp_right mem_singleton.mp
    refine ⟨shelved, fun c inside => ?_, fun other here => ?_, fun down => ?_⟩
    · rcases joined c inside with old | rfl
      · exact held.fit c old
      · exact own
    · obtain rfl := Option.some.inj (up.symm.trans here)
      refine ⟨kept, ⟨running.journal, running.buffered, running.batched, fun c inside => ?_⟩,
        accounts.pushed fun row secure => secure.moved rfl rfl rfl (fun _ r => r) rfl
          (fun f there _ => there) running⟩
      rcases joined c inside with old | rfl
      · exact running.flights c old
      · exact inFlight_of_idle rfl
    · rw [up] at down
      cases down
  | call i e =>
    obtain ⟨m, c, t', d, up, here, called, rfl⟩ := step_call next
    obtain ⟨kept, running, accounts⟩ := held.up m up
    have fit := held.fit c (mem_of_getElem? here)
    obtain ⟨m', kept', up', again, accounts'⟩ :=
      running.calls floats fit accounts up here (own c here) called
    refine ⟨shelved, fun e inside => ?_, fun other there => ?_, fun down => ?_⟩
    · rcases mem_or_eq_of_mem_set inside with old | rfl
      · exact held.fit e old
      · exact called.fit fit (own c here)
    · obtain rfl := Option.some.inj (up'.symm.trans there)
      exact ⟨kept', again, accounts'⟩
    · rw [up'] at down
      cases down
  | _ => exact absurd rfl aside

end

/-- The open buffer, a sealing batch or a live segment holds the row. -/
def HoldsRow (node : Node) (s : State) (m : Memory) (row : EventRow) : Prop :=
  Shows node m.openRows row ∨ (∃ b ∈ m.sealing, Shows node b.rows row) ∨
    ∃ live ∈ s.catalog.manifests, ∃ rows, s.files.get? live.segmentId = some rows ∧
      Shows node rows row

/-- The store holds every row of every batch whose commit returned `Ok`. -/
def KeepsAcknowledged (node : Node) (s : State) (m : Memory) : Prop :=
  ∀ c ∈ s.commits, ∀ outcome, c.stage = .returned (.ok outcome) →
    ∃ x ∈ s.accepted, Answers x c outcome ∧ ∀ row ∈ x.2, HoldsRow node s m row

theorem Secure.holdsRow {node : Node} {s : State} {m : Memory} {kept : List Wal.Frame} {row : EventRow}
    (running : Running node s m kept) (secure : Secure node s m kept row) : HoldsRow node s m row := by
  cases secure with
  | live stands =>
    obtain ⟨r, ⟨live, there, rows, found, inside⟩, same⟩ := stands
    exact .inr (.inr ⟨live, there, rows, found, r, inside, same⟩)
  | opened holds framed => exact .inl holds
  | sealing batch drained holds framed =>
    obtain ⟨b, inside, same⟩ := (running.batched batch drained).sealing
    exact .inr (.inl ⟨b, inside, same ▸ holds⟩)

/-- In every run of commits, seals, installs, swaps, crashes and opens the store holds
every acknowledged row, and a directory left by a crash opens again. -/
theorem acknowledged_rows_held {node : Node} {t : State} (floats : FloatsReadBack node)
    (run : Reach (step node) (Orderly node) .empty t) : (∀ m, t.up = some m → KeepsAcknowledged node t m) ∧
      (t.up = none → ∀ now, ∃ u, step node t (.openWith now) = some u) := by
  have held : Held node t := Reach.invariant _ Held.empty
    (fun _ _ _ before allowed next => before.step floats allowed next) run
  refine ⟨fun m up c inside outcome stage => ?_, fun down now => held.opens down⟩
  obtain ⟨kept, running, accounts⟩ := held.up m up
  obtain ⟨x, mem, answers, all⟩ := accounts.answered c inside outcome (by rw [stage]; rfl)
  exact ⟨x, mem, answers, fun row there => (all row there).holdsRow running⟩

section
open Xxh3

/-- A store whose rows have no floats but `0`. -/
def zeroNode : Node := { plainNode with floatText := fun _ => "0", parseFloat := fun _ => some 0 }

def sealAlone (segmentIds : List Id) : List Event :=
  [.sealStart none, .sealing (.check none), .sealing (.drain segmentIds), .sealing (.build 2)] ++
    segmentIds.map (fun _ => .sealing .write) ++
    [.sealing .publish, .sealing .drop, .sealing (.reclaim none), .sealing .done]

theorem acknowledged_rows_held_after_seal : ∃ t m, Reach (step zeroNode) (Orderly zeroNode) .empty t ∧ t.up = some m ∧
      t.commits.map Commit.stage = [.returned (.ok ⟨1, 1, 1, false⟩), .returned (.ok ⟨1, 1, 2, false⟩)] ∧
      KeepsAcknowledged zeroNode t m := by
  obtain ⟨t, run, stages⟩ := @Reach.of_exec_any _ _ (step zeroNode) (Orderly zeroNode) _ .empty
    (.openWith 1 :: commitAlone 0 0 1 1 [EventRow.new 7 "event" "opened" 0] ++ sealAlone [5] ++
      commitAlone 1 1 1 2 [EventRow.new 8 "event" "closed" 5] ++ [.crash, .openWith 3])
    (fun t => t.up.isSome ∧ t.commits.map Commit.stage =
      [.returned (.ok ⟨1, 1, 1, false⟩), .returned (.ok ⟨1, 1, 2, false⟩)]) (by decide +kernel)
  obtain ⟨up, stages⟩ : t.up.isSome = true ∧ _ := by simpa using stages
  obtain ⟨m, here⟩ := Option.isSome_iff_exists.mp up
  have floats : FloatsReadBack zeroNode := ⟨fun _ => rfl, fun _ _ _ => rfl⟩
  exact ⟨t, m, run, here, stages, (acknowledged_rows_held floats run).1 m here⟩

/-- Some commit returned `Ok`, every batch that went in has the event, and nothing the
store answers from has it. -/
def misses (event : Id) (t : State) (m : Memory) : Bool :=
  m.openRows.all (·.eventId ≠ event) &&
  m.sealing.all (fun b => b.rows.all (·.eventId ≠ event)) &&
  t.catalog.manifests.all (fun live => (t.files.get? live.segmentId).all fun rows =>
    rows.all (·.eventId ≠ event)) &&
  t.accepted.all (fun x => x.2.any (·.eventId = event)) &&
  t.commits.any (fun c => match c.stage with
    | .returned (.ok _) => true
    | _ => false)

theorem not_keeps_of_misses {node : Node} {t : State} {m : Memory} {event : Id}
    (missing : misses event t m = true) : ¬ KeepsAcknowledged node t m := by
  simp only [misses, Bool.and_eq_true, all_eq_true, Option.all_eq_true, any_eq_true,
    decide_eq_true_eq] at missing
  obtain ⟨⟨⟨⟨opened, sealing⟩, live⟩, accepted⟩, c, inside, returned⟩ := missing
  -- A row that shows as one with the event has the event.
  have same : ∀ {rows : List EventRow} {row : EventRow}, row.eventId = event →
      Shows node rows row → ∃ r ∈ rows, r.eventId = event := by
    rintro rows row has ⟨r, there, equal⟩
    exact ⟨r, there, (congrArg (fun x => x.1.eventId) equal).trans has⟩
  intro keeps
  split at returned
  · rename_i outcome stage
    obtain ⟨x, mem, -, all⟩ := keeps c inside outcome stage
    obtain ⟨row, there, has⟩ := accepted x mem
    rcases all row there with shows_ | ⟨b, sealed, shows_⟩ | ⟨man, listed, rows, found, shows_⟩
    · obtain ⟨r, old, equal⟩ := same has shows_
      exact opened r old equal
    · obtain ⟨r, old, equal⟩ := same has shows_
      exact sealing b sealed r old equal
    · obtain ⟨r, old, equal⟩ := same has shows_
      exact live man listed rows found r old equal
  · cases returned

/-- A retry is answered from the receipt while the first call of the batch is between its
receipt and its open extend. And a segment that arrives under a live segment's id, with
other content, takes the place of its file, and no open brings the rows back. -/
theorem acknowledged_rows_missing : (∃ t m, Reach (step zeroNode) anyStep .empty t ∧ t.up = some m ∧
      ¬ KeepsAcknowledged zeroNode t m) ∧ ∃ t m, Reach (step zeroNode) anyStep .empty t ∧ t.up = some m ∧
      (∀ c ∈ t.commits, c.stage = .returned (.ok ⟨1, 1, 1, false⟩)) ∧ ¬ KeepsAcknowledged zeroNode t m := by
  constructor
  · obtain ⟨t, run, missing⟩ := @Reach.of_exec_any _ _ (step zeroNode) anyStep _ .empty
      (.openWith 1 :: (commitAlone 0 0 1 1 [EventRow.new 7 "event" "opened" 0]).dropLast ++
        [.commit 1 1 [EventRow.new 7 "event" "opened" 0], .call 1 (.lookup 2)])
      (fun t => t.up.any (misses 7 t)) (by decide +kernel)
    obtain ⟨m, up, missing⟩ := (Option.any_eq_true _ _).mp missing
    exact ⟨t, m, run, up, not_keeps_of_misses missing⟩
  · obtain ⟨t, run, missing⟩ := @Reach.of_exec_any _ _ (step zeroNode) anyStep _ .empty
      (.openWith 1 :: commitAlone 0 0 1 1 [EventRow.new 7 "event" "opened" 0] ++ sealAlone [5] ++
        [.install ({ plainManifest 5 with contentAddress := [1] }, [EventRow.new 8 "event" "closed" 5]),
          .installWrite 0, .installPublish 0, .crash, .openWith 3])
      (fun t => t.commits.all (fun c => c.stage = .returned (.ok ⟨1, 1, 1, false⟩)) &&
        t.up.any (misses 7 t)) (by decide +kernel)
    obtain ⟨answers, missing⟩ := Bool.and_eq_true_iff.mp missing
    obtain ⟨m, up, missing⟩ := (Option.any_eq_true _ _).mp missing
    exact ⟨t, m, run, up, by simpa using answers, not_keeps_of_misses missing⟩

end

end TallyOwl.Segmented
