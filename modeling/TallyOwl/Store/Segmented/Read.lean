import TallyOwl.Store.Segmented.Live

/-! How a read looks at a running store: the memory under one lock, then the catalog.
With it, what a read may rely on: the sealing list is the batch of the seal that has the
turn, and a manifest describes the rows of its file. -/
namespace TallyOwl.Segmented
open Lib Format Locate RowCodec List OrderedMap

inductive TimeBasis where
  | occurredAt | receivedAt | committedAt
  deriving DecidableEq

def timeOf (row : EventRow) : TimeBasis → Int
  | .occurredAt => row.occurredAt
  | .receivedAt => row.receivedAt
  | .committedAt => row.committedAt

def rangeBy (m : Manifest) : TimeBasis → Int × Int
  | .occurredAt => m.occurredRange
  | .receivedAt => m.receivedRange
  | .committedAt => m.committedRange

structure MemoryView where
  openRows : List EventRow
  sealing : List (List Id × List EventRow)

def memoryView (keep : EventRow → Bool) (m : Memory) : MemoryView :=
  ⟨m.openRows.filter keep, m.sealing.map fun b => (b.segmentIds, b.rows.filter keep)⟩

def MemoryView.kept (view : MemoryView) (keep : EventRow → Bool) : MemoryView :=
  ⟨view.openRows.filter keep, view.sealing.map fun b => (b.1, b.2.filter keep)⟩

def hasAny (manifests : List Manifest) (ids : List Id) : Bool :=
  ids.any fun id => decide (id ∈ manifests.map Manifest.segmentId)

def unpublished (manifests : List Manifest) (view : MemoryView) : List EventRow :=
  view.openRows ++
    (view.sealing.filter fun b => hasAny manifests b.1 = false).flatMap Prod.snd

theorem unpublished_kept (keep : EventRow → Bool) (manifests : List Manifest) (view : MemoryView) :
    unpublished manifests (view.kept keep) = (unpublished manifests view).filter keep := by
  have batches : ∀ sealing : List (List Id × List EventRow),
      ((sealing.map fun b => (b.1, b.2.filter keep)).filter fun b =>
        hasAny manifests b.1 = false).flatMap Prod.snd =
      ((sealing.filter fun b => hasAny manifests b.1 = false).flatMap Prod.snd).filter keep := by
    intro sealing
    induction sealing with
    | nil => rfl
    | cons b rest ih =>
      simp only [map_cons, filter_cons]
      split
      · rw [flatMap_cons, flatMap_cons, filter_append, ih]
      · exact ih
  rw [unpublished, unpublished, filter_append, MemoryView.kept, batches]

theorem unpublished_congr {manifests others : List Manifest} {view : MemoryView}
    (same : ∀ b ∈ view.sealing, hasAny manifests b.1 = hasAny others b.1) :
    unpublished manifests view = unpublished others view := by
  rw [unpublished, unpublished]
  refine congrArg (fun batches => _ ++ List.flatMap Prod.snd batches) (filter_congr fun b inside => ?_)
  rw [same b inside]

def segmentRows (s : State) (m : Manifest) : List EventRow := (s.files.get? m.segmentId).getD []

def Described (m : Manifest) (row : EventRow) : Prop :=
  row.projectId = m.projectId ∧
    ∀ basis, (rangeBy m basis).1 ≤ timeOf row basis ∧ timeOf row basis ≤ (rangeBy m basis).2

/-- A segment that comes in is described by its header, and a swap keeps a project's
rows under the project. -/
def WellDescribed : Event → Prop
  | .install segment => ∀ row ∈ segment.2, Described segment.1 row
  | .swap _ replacements => ∀ r ∈ replacements, ∀ row ∈ r.2.2, row.projectId = r.1.projectId
  | _ => True

def State.listed (s : State) : Option Drained := s.turn.bind fun holder => holder.stage.listed

def Drained.sealing (batch : Drained) : SealingBatch :=
  ⟨batch.plan.map Prod.snd, batch.rows, batch.address⟩

/-- A batch plans one segment for each project its rows have. -/
structure Planned (batch : Drained) : Prop where
  distinct : (batch.plan.map Prod.fst).Nodup
  covers : ∀ row ∈ batch.rows, ∃ id, (projectOf row, id) ∈ batch.plan

structure Arranged (s : State) : Prop where
  sealing : ∀ m, s.up = some m → m.sealing = s.listed.toList.map Drained.sealing
  projects : ∀ m, s.up = some m → ∀ row ∈ m.openRows, (projectOf row, ()) ∈ m.openProjects.entries
  planned : ∀ batch, s.batch = some batch → Planned batch
  published : ∀ holder batch written, s.turn = some holder →
    holder.stage = .published batch written → (batch.plan = [] → batch.rows = []) ∧
      ∀ id ∈ batch.plan.map Prod.snd, ∃ m ∈ s.catalog.manifests, m.segmentId = id
  idle : s.up = none → s.turn = none
  live : ∀ m ∈ s.catalog.manifests, ∀ rows ∈ s.files.get? m.segmentId, ∀ row ∈ rows, Described m row
  installs : ∀ install ∈ s.installs, ∀ row ∈ install.segment.2, Described install.segment.1 row
  placed : ∀ install ∈ s.installs, install.written = true →
    s.files.get? install.segment.1.segmentId = some install.segment.2
  swaps : ∀ swap ∈ s.swaps, ∀ w ∈ swap.segments, ∀ row ∈ w.2, Described w.1 row

theorem Arranged.empty : Arranged .empty where
  sealing := by simp [State.empty]
  projects := by simp [State.empty]
  planned := by simp [State.empty, State.batch]
  published := by simp [State.empty]
  idle := by simp [State.empty]
  live := by simp [State.empty, Catalog.empty, Catalog.manifests, Catalog.newest, OrderedMap.values]
  installs := by simp [State.empty]
  placed := by simp [State.empty]
  swaps := by simp [State.empty]

section
variable {node : Node} {row : EventRow} {rows : List EventRow}

theorem rangeOf_bounds (pick : EventRow → Int) (inside : row ∈ rows) :
    (rangeOf pick rows).1 ≤ pick row ∧ pick row ≤ (rangeOf pick rows).2 := by
  have folded : ∀ (rows : List EventRow) (start : Int × Int),
      let range := rows.foldl (fun r row => (min r.1 (pick row), max r.2 (pick row))) start
      (range.1 ≤ start.1 ∧ start.2 ≤ range.2) ∧
        ∀ row ∈ rows, range.1 ≤ pick row ∧ pick row ≤ range.2 := by
    intro rows
    induction rows with
    | nil => simp
    | cons r rest ih =>
      intro start
      obtain ⟨⟨low, high⟩, each⟩ := ih (min start.1 (pick r), max start.2 (pick r))
      refine ⟨⟨low.trans (min_le_left _ _), (le_max_left _ _).trans high⟩, fun row inside => ?_⟩
      rcases mem_cons.mp inside with rfl | later
      · exact ⟨low.trans (min_le_right _ _), (le_max_right _ _).trans high⟩
      · exact each row later
  exact (folded rows _).2 row inside

theorem described_describe {m : Manifest} (project : row.projectId = m.projectId)
    (inside : row ∈ rows) : Described (describe node m rows) row := by
  refine ⟨project, fun basis => ?_⟩
  cases basis with
  | occurredAt => exact rangeOf_bounds EventRow.occurredAt inside
  | receivedAt => exact rangeOf_bounds EventRow.receivedAt inside
  | committedAt => exact rangeOf_bounds EventRow.committedAt inside

theorem Planned.described {batch : Drained} (planned : Planned batch) {w : Written}
    (inside : w ∈ batch.plan.map (sealedSegment node batch)) (there : row ∈ w.2) : Described w.1 row := by
  obtain ⟨p, mem, rfl⟩ := mem_map.mp inside
  refine described_describe ?_ there
  have project : projectOf row = p.1 := by
    simp only [sealedSegment, projectRows] at there
    split at there
    · rename_i one
      obtain ⟨id, found⟩ := planned.covers row there
      obtain ⟨q, only⟩ := length_eq_one_iff.mp one
      rw [only, mem_singleton] at found mem
      rw [mem, ← found]
    · simpa using (List.mem_filter.mp there).2
  exact congrArg (fun p => (ofLex p).2) project

theorem planned_drain {m : Memory} {segmentIds : List Id}
    (projects : ∀ row ∈ m.openRows, (projectOf row, ()) ∈ m.openProjects.entries)
    (length : segmentIds.length = m.openProjects.entries.length) : Planned (m.drain segmentIds).2 :=
  ⟨map_fst_plan length ▸ m.openProjects.nodup_keys, mem_plan_drain projects length⟩

end

section
variable {node : Node} {s t : State}

variable (arranged : Arranged s)
include arranged

theorem Arranged.kept (segments : t.catalog.segments = s.catalog.segments)
    (files : t.files = s.files) (installs : t.installs = s.installs) (swaps : t.swaps = s.swaps)
    (sealing : ∀ m, t.up = some m → m.sealing = t.listed.toList.map Drained.sealing)
    (projects : ∀ m, t.up = some m → ∀ row ∈ m.openRows, (projectOf row, ()) ∈ m.openProjects.entries)
    (planned : ∀ batch, t.batch = some batch → Planned batch)
    (published : ∀ holder batch written, t.turn = some holder →
      holder.stage = .published batch written → (batch.plan = [] → batch.rows = []) ∧
        ∀ id ∈ batch.plan.map Prod.snd, ∃ m ∈ s.catalog.manifests, m.segmentId = id)
    (idle : t.up = none → t.turn = none) : Arranged t := by
  have manifests : t.catalog.manifests = s.catalog.manifests := by
    unfold Catalog.manifests
    rw [segments]
  refine ⟨sealing, projects, planned, manifests ▸ published, idle, ?_, ?_, ?_, ?_⟩
  · rw [manifests, files]
    exact arranged.live
  · rw [installs]
    exact arranged.installs
  · rw [installs, files]
    exact arranged.placed
  · rw [swaps]
    exact arranged.swaps

theorem Arranged.aside (segments : t.catalog.segments = s.catalog.segments)
    (files : t.files = s.files) (installs : t.installs = s.installs) (swaps : t.swaps = s.swaps)
    (turn : t.turn = s.turn) (memory : ∀ m', t.up = some m' → ∃ m, s.up = some m ∧ m'.sealing = m.sealing ∧
      ∀ row ∈ m'.openRows, (projectOf row, ()) ∈ m'.openProjects.entries)
    (idle : t.up = none → s.up = none) : Arranged t := by
  have listed : t.listed = s.listed := by rw [State.listed, State.listed, turn]
  have batch : t.batch = s.batch := by rw [State.batch, State.batch, turn]
  refine arranged.kept segments files installs swaps ?_ ?_ (batch ▸ arranged.planned)
    (turn ▸ arranged.published) (fun down => turn ▸ arranged.idle (idle down))
  · intro m' up
    obtain ⟨m, before, same, -⟩ := memory m' up
    rw [same, listed]
    exact arranged.sealing m before
  · intro m' up
    obtain ⟨m, -, -, known⟩ := memory m' up
    exact known

theorem Arranged.live_insert (shelved : Shelved node s) {id : Id}
    {rows : List EventRow} (claimed : id ∈ s.claimed) :
    ∀ m ∈ s.catalog.manifests, ∀ held ∈ (s.files.insert id rows).get? m.segmentId, ∀ row ∈ held, Described m row := by
  intro m live held found
  rw [get?_insert, if_neg] at found
  · exact arranged.live m live held found
  · rintro rfl
    exact shelved.live_unclaimed live claimed

theorem Arranged.placed_insert {id : Id} {rows : List EventRow}
    (apart : id ∉ s.installs.flatMap Install.claims) : ∀ install ∈ s.installs, install.written = true →
      (s.files.insert id rows).get? install.segment.1.segmentId = some install.segment.2 := by
  intro install mem written
  rw [get?_insert, if_neg]
  · exact arranged.placed install mem written
  · rintro rfl
    exact apart (mem_flatMap.mpr ⟨install, mem, mem_singleton_self _⟩)

theorem Arranged.live_published (shelved : Shelved node s)
    {retire : List Id} {segments : List Written} {locator : Locator} {checkpoint : Option Nat}
    {catalog : Catalog} (filed : ∀ w ∈ segments, ∀ rows ∈ s.files.get? w.1.segmentId, rows = w.2)
    (described : ∀ w ∈ segments, ∀ row ∈ w.2, Described w.1 row)
    (published : s.catalog.publishInOneTransaction retire (segments.map Prod.fst) locator checkpoint = some catalog) :
    ∀ m ∈ catalog.manifests, ∀ rows ∈ s.files.get? m.segmentId, ∀ row ∈ rows, Described m row := by
  intro m live rows found row inside
  rcases shelved.recorded.live_cases published live with old | ⟨n, new, rfl⟩
  · exact arranged.live m old rows found row inside
  · obtain ⟨w, mem, rfl⟩ := mem_map.mp new
    obtain rfl := filed w mem rows found
    exact described w mem row inside

theorem Arranged.settles {m : Memory} (segments : t.catalog = s.catalog)
    (files : t.files = s.files) (installs : t.installs = s.installs) (swaps : t.swaps = s.swaps)
    (up : t.up = some m) (settled : t.listed = none) (sealing : m.sealing = [])
    (projects : ∀ row ∈ m.openRows, (projectOf row, ()) ∈ m.openProjects.entries) : Arranged t := by
  have none : ∀ holder, t.turn = some holder → holder.stage.listed = .none := by
    intro holder turn
    rw [State.listed, turn] at settled
    exact settled
  refine arranged.kept (by rw [segments]) files installs swaps ?_ ?_ ?_ ?_ ?_
  · intro m' up'
    obtain rfl := Option.some.inj (up.symm.trans up')
    rw [sealing, settled]
    rfl
  · intro m' up'
    obtain rfl := Option.some.inj (up.symm.trans up')
    exact projects
  · intro batch found
    obtain ⟨holder, turn, drained⟩ := Option.bind_eq_some_iff.mp found
    cases (SealStage.unpublished_of_listed (none holder turn)).symm.trans drained
  · intro holder batch written turn stage
    have absurd := none holder turn
    rw [stage] at absurd
    cases absurd
  · intro down
    cases up.symm.trans down

omit arranged

theorem filter_address (batch : Drained) :
    ([batch].map Drained.sealing).filter (fun b => decide (b.address ≠ batch.address)) = [] := by
  simp [Drained.sealing]

theorem Arranged.sealing_step {e : SealEvent} (arranged : Arranged s) (shelved : Shelved node s)
    (next : step node s (.sealing e) = some t) : Arranged t := by
  obtain ⟨m, holder, up, turn, moved⟩ := step_sealing next
  have before := arranged.sealing m up
  have known := arranged.projects m up
  have listed : s.listed = holder.stage.listed := by rw [State.listed, turn]; rfl
  have running : ∀ m', s.up = some m' → m' = m := fun m' up' =>
    Option.some.inj (up'.symm.trans up)
  have awake : s.up = none → ∀ x : Option Seal, x = none := by
    intro down
    cases up.symm.trans down
  cases moved with
  | stops _ result settled allowed =>
    refine arranged.settles rfl rfl rfl rfl up rfl ?_ known
    rw [before, listed, settled]
    rfl
  | checked stage =>
    refine arranged.settles rfl rfl rfl rfl up rfl ?_ known
    rw [before, listed, stage]
    rfl
  | drained segmentIds stage free rows length =>
    refine arranged.kept rfl rfl rfl rfl ?_ ?_ ?_ ?_ ?_
    · rintro m' ⟨⟩
      have empty : m.sealing = [] := by
        rw [before, listed, stage]
        rfl
      have ids := @map_snd_plan m segmentIds length
      calc (m.drain segmentIds).1.sealing
          = [⟨segmentIds, m.openRows, m.addresses⟩] := by simp only [Memory.drain, empty, nil_append]
        _ = [(m.drain segmentIds).2.sealing] := by rw [Drained.sealing, ids]; rfl
    · rintro m' ⟨⟩ row ⟨⟩
    · rintro batch ⟨⟩
      exact planned_drain known length
    · rintro _ _ _ ⟨⟩ ⟨⟩
    · rintro ⟨⟩
  | emptied now batch stage nothing =>
    have planned := arranged.planned batch (by rw [State.batch_eq turn, stage]; rfl)
    refine arranged.kept rfl rfl rfl rfl ?_ arranged.projects ?_ ?_ (fun down => awake down _)
    · intro m' up'
      rw [running m' up', before, listed, stage]
      rfl
    · rintro _ ⟨⟩
    · rintro _ _ _ ⟨⟩ ⟨⟩
      refine ⟨fun _ => eq_nil_iff_forall_not_mem.mpr fun row inside => ?_, by simp [nothing]⟩
      obtain ⟨id, mem⟩ := planned.covers row inside
      rw [nothing] at mem
      cases mem
  | built now batch stage =>
    refine arranged.kept rfl rfl rfl rfl ?_ arranged.projects ?_ ?_ (fun down => awake down _)
    · intro m' up'
      rw [running m' up', before, listed, stage]
      rfl
    · rintro _ ⟨⟩
      exact arranged.planned batch (by rw [State.batch_eq turn, stage]; rfl)
    · rintro _ _ _ ⟨⟩ ⟨⟩
  | wrote batch segments w left stage =>
    obtain ⟨-, filed⟩ := shelved.planned holder batch segments _ turn stage
    have mine : w.1.segmentId ∈ s.sealClaims := by
      rw [State.sealClaims, turn]
      simp only [Option.elim, stage]
      exact mem_map.mpr ⟨w, filed.part w mem_cons_self, rfl⟩
    refine ⟨?_, arranged.projects, ?_, ?_, fun down => awake down _,
      arranged.live_insert shelved (mem_append_left _ mine), arranged.installs,
      arranged.placed_insert (shelved.seal_apart mine).1, arranged.swaps⟩
    · intro m' up'
      rw [running m' up', before, listed, stage]
      rfl
    · rintro _ ⟨⟩
      exact arranged.planned batch (by rw [State.batch_eq turn, stage]; rfl)
    · rintro _ _ _ ⟨⟩ ⟨⟩
  | published batch segments catalog stage published =>
    obtain ⟨plan, filed⟩ := shelved.planned holder batch segments _ turn stage
    have planned := arranged.planned batch (by rw [State.batch_eq turn, stage]; rfl)
    have distinct : (segments.map fun w => w.1.segmentId).Nodup := by
      have mine := (List.nodup_append.mp shelved.distinct).1
      rw [State.sealClaims, turn] at mine
      simp only [Option.elim, stage] at mine
      exact mine
    have inPlace : ∀ w ∈ segments, ∀ rows ∈ s.files.get? w.1.segmentId, rows = w.2 := by
      intro w inside rows found
      rcases filed.filed w inside with later | done
      · cases later
      · exact Option.some.inj (found.symm.trans done)
    refine ⟨?_, arranged.projects, ?_, ?_, fun down => awake down _,
      arranged.live_published shelved inPlace ?_ published, arranged.installs, arranged.placed,
      arranged.swaps⟩
    · intro m' up'
      rw [running m' up', before, listed, stage]
      rfl
    · rintro _ ⟨⟩
    · rintro _ _ _ ⟨⟩ ⟨⟩
      refine ⟨fun nothing => eq_nil_iff_forall_not_mem.mpr fun row inside => ?_, ?_⟩
      · obtain ⟨id, mem⟩ := planned.covers row inside
        rw [nothing] at mem
        cases mem
      · intro id inside
        rw [← @map_sealedSegment_id node, ← plan] at inside
        obtain ⟨w, mem, rfl⟩ := mem_map.mp inside
        refine ⟨_, shelved.recorded.live_new published (by simpa [Function.comp_def] using distinct)
          (mem_map.mpr ⟨w, mem, rfl⟩) ?_, rfl⟩
        rw [plan] at mem
        obtain ⟨p, -, rfl⟩ := mem_map.mp mem
        simp [sealedSegment, describe]
    · rw [plan]
      exact fun w mem row inside => planned.described mem inside
  | reopened _ batch error now stage allowed =>
    have lists : s.listed = some batch := by
      rw [listed]
      exact SealStage.listed_of_unpublished stage
    refine arranged.settles rfl rfl rfl rfl rfl rfl ?_ ?_
    · rw [Memory.reopen, before, lists]
      exact filter_address batch
    · intro row inside
      rcases mem_append.mp inside with mine | old
      · exact mem_withProjects (.inl mine)
      · exact mem_withProjects (.inr (known row old))
  | dropped batch written stage =>
    refine arranged.settles rfl rfl rfl rfl rfl rfl ?_ known
    rw [before, listed, stage]
    exact filter_address batch
  | reclaims written fault wal stage positive ran =>
    refine arranged.settles rfl rfl rfl rfl rfl rfl ?_ known
    rw [before, listed, stage]
    rfl

theorem Arranged.step {e : Event} (arranged : Arranged s) (shelved : Shelved node s)
    (allowed : KeepsSegments s e) (header : WellDescribed e) (next : step node s e = some t) : Arranged t := by
  have same : t.catalog.segments = s.catalog.segments → t.files = s.files →
      t.installs = s.installs → t.swaps = s.swaps → t.turn = s.turn → t.up = s.up →
      Arranged t := by
    intro segments files installs swaps turn up
    refine arranged.aside segments files installs swaps turn (fun m running => ?_) (by rw [up]; exact id)
    rw [up] at running
    exact ⟨m, running, rfl, arranged.projects m running⟩
  -- The memory keeps its open rows and its sealing batches.
  have inside : ∀ {m m' : Memory}, s.up = some m → t.up = some m' → m'.sealing = m.sealing →
      m'.openRows = m.openRows → m'.openProjects = m.openProjects →
      t.catalog.segments = s.catalog.segments → t.files = s.files →
      t.installs = s.installs → t.swaps = s.swaps → t.turn = s.turn → Arranged t := by
    intro m m' up running sealing rows projects segments files installs swaps turn
    refine arranged.aside segments files installs swaps turn (fun n there => ?_) ?_
    · obtain rfl := Option.some.inj (running.symm.trans there)
      rw [rows, projects]
      exact ⟨m, up, sealing, arranged.projects m up⟩
    · rw [running]
      rintro ⟨⟩
  cases e with
  | openLog =>
    simp only [Segmented.step] at next
    split at next
    · cases next
      exact same rfl rfl rfl rfl rfl rfl
    · cases next
  | recordCheckpoint =>
    simp only [Segmented.step] at next
    split at next
    · cases next
      exact same rfl rfl rfl rfl rfl rfl
    · cases next
  | openWith now =>
    simp only [Segmented.step] at next
    split at next
    · rename_i down _
      obtain ⟨m, ran, again⟩ := Option.bind_eq_some_iff.mp next
      cases again
      have settled : s.listed = none := by rw [State.listed, arranged.idle down]; rfl
      simp only [recovered] at ran
      split at ran
      · cases ran
      · cases ran
        refine arranged.kept rfl rfl rfl rfl ?_ ?_ arranged.planned arranged.published (by rintro ⟨⟩)
        · rintro m' ⟨⟩
          exact (congrArg (fun b : Option Drained => b.toList.map Drained.sealing) settled).symm
        · rintro m' ⟨⟩ row mem
          exact mem_withProjects (.inl mem)
    · cases next
  | crash =>
    obtain ⟨m, up, again⟩ := Option.bind_eq_some_iff.mp next
    cases again
    exact ⟨by rintro _ ⟨⟩, by rintro _ ⟨⟩, by rintro _ ⟨⟩, by rintro _ _ _ ⟨⟩, fun _ => rfl,
      arranged.live, by rintro _ ⟨⟩, by rintro _ ⟨⟩, by rintro _ ⟨⟩⟩
  | commit sourceId batchId rows =>
    obtain ⟨m, up, again⟩ := Option.bind_eq_some_iff.mp next
    cases again
    exact same rfl rfl rfl rfl rfl rfl
  | call i e =>
    obtain ⟨m, c, t', d, up, here, called, rfl⟩ := step_call next
    cases called with
    | numbered committedAt stage => exact inside up rfl rfl rfl rfl rfl rfl rfl rfl rfl
    | entered committedAt watermark wal stage ran =>
      exact inside up rfl rfl rfl rfl rfl rfl rfl rfl rfl
    | extended now committedAt watermark position due stage =>
      refine arranged.aside rfl rfl rfl rfl rfl ?_ (by rintro ⟨⟩)
      rintro m' ⟨⟩
      refine ⟨m, up, rfl, fun row mem => mem_withProjects ?_⟩
      rcases mem_append.mp mem with old | new
      · exact .inr (arranged.projects m up row old)
      · exact .inl new
    | _ => exact same rfl rfl rfl rfl rfl rfl
  | log e =>
    obtain ⟨m, up, more⟩ := Option.bind_eq_some_iff.mp next
    split at more
    · obtain ⟨wal, -, again⟩ := Option.bind_eq_some_iff.mp more
      cases again
      exact inside up rfl rfl rfl rfl rfl rfl rfl rfl rfl
    · cases more
  | sealStart owner =>
    obtain ⟨m, up, more⟩ := Option.bind_eq_some_iff.mp next
    have free : s.turn = none → m.sealing = [] := by
      intro turn
      rw [arranged.sealing m up, State.listed, turn]
      rfl
    split at more
    · rename_i turn
      cases more
      exact arranged.settles rfl rfl rfl rfl up rfl (free turn) (arranged.projects m up)
    · rename_i turn
      split at more
      · cases more
        exact arranged.settles rfl rfl rfl rfl up rfl (free turn) (arranged.projects m up)
      · cases more
    · cases more
  | sealing e => exact arranged.sealing_step shelved next
  | install segment =>
    obtain ⟨m, up, more⟩ := Option.bind_eq_some_iff.mp next
    split at more
    · cases more
      exact arranged
    · cases more
      refine { arranged with
        installs := fun install mem => ?_
        placed := fun install mem written => ?_ }
      · rcases mem_append.mp mem with old | new
        · exact arranged.installs install old
        · obtain rfl := mem_singleton.mp new
          exact header
      · rcases mem_append.mp mem with old | new
        · exact arranged.placed install old written
        · obtain rfl := mem_singleton.mp new
          cases written
  | installWrite k =>
    obtain ⟨m, up, more⟩ := Option.bind_eq_some_iff.mp next
    obtain ⟨install, there, again⟩ := Option.bind_eq_some_iff.mp more
    cases again
    have mine : install.segment.1.segmentId ∈ s.claimed :=
      mem_append_right _ (mem_append_left _
        (mem_flatMap.mpr ⟨install, mem_of_getElem? there, mem_singleton_self _⟩))
    refine { arranged with
      live := arranged.live_insert shelved mine
      installs := fun other mem => ?_
      placed := fun other mem written => ?_ }
    · rcases mem_or_eq_of_mem_set mem with old | rfl
      · exact arranged.installs other old
      · exact arranged.installs install (mem_of_getElem? there)
    · rw [get?_insert]
      rcases mem_or_eq_of_mem_set mem with old | rfl
      · split
        · rename_i equal
          obtain ⟨j, found⟩ := mem_iff_getElem?.mp old
          have claims := (List.nodup_append.mp (List.nodup_append.mp shelved.distinct).2.1).1
          obtain rfl := eq_of_nodup_flatMap claims there found (mem_singleton_self _)
            (equal ▸ mem_singleton_self _)
          rw [Option.some.inj (there.symm.trans found)]
        · exact arranged.placed other old written
      · exact if_pos rfl
  | installPublish k =>
    obtain ⟨m, up, more⟩ := Option.bind_eq_some_iff.mp next
    obtain ⟨install, there, again⟩ := Option.bind_eq_some_iff.mp more
    split at again
    · rename_i written
      obtain ⟨catalog, published, last⟩ := Option.bind_eq_some_iff.mp again
      cases last
      have mine := mem_of_getElem? there
      have inPlace : ∀ w ∈ [install.segment], ∀ rows ∈ s.files.get? w.1.segmentId, rows = w.2 := by
        intro w mem rows found
        obtain rfl := mem_singleton.mp mem
        exact Option.some.inj (found.symm.trans (arranged.placed install mine written))
      have apart : ∀ n ∈ [install.segment].map Prod.fst, ∀ m ∈ s.catalog.manifests,
          n.segmentId ≠ m.segmentId := by
        intro n mem m live same
        obtain rfl := mem_singleton.mp mem
        refine shelved.live_unclaimed live (mem_append_right _ (mem_append_left _ ?_))
        exact mem_flatMap.mpr ⟨install, mine, same ▸ mem_singleton_self _⟩
      refine { arranged with
        published := fun holder batch written held stage => ?_
        live := arranged.live_published shelved inPlace ?_ published
        installs := fun other mem => arranged.installs other (mem_of_mem_eraseIdx mem)
        placed := fun other mem => arranged.placed other (mem_of_mem_eraseIdx mem) }
      · obtain ⟨empty, live⟩ := arranged.published holder batch written held stage
        refine ⟨empty, fun id planned => ?_⟩
        obtain ⟨m, there, same⟩ := live id planned
        exact ⟨m, shelved.recorded.live_stays published there (by simp)
          (fun n new => apart n new m there), same⟩
      · intro w mem
        obtain rfl := mem_singleton.mp mem
        exact arranged.installs install mine
    · cases again
  | swap retire replacements =>
    obtain ⟨m, up, more⟩ := Option.bind_eq_some_iff.mp next
    split at more
    · cases more
      exact arranged
    · cases more
      refine { arranged with swaps := fun swap mem => ?_ }
      rcases mem_append.mp mem with old | new
      · exact arranged.swaps swap old
      · obtain rfl := mem_singleton.mp new
        intro w there row held
        obtain ⟨r, given, rfl⟩ := mem_map.mp there
        exact described_describe (header r given row held) held
  | swapWrite k =>
    obtain ⟨m, up, more⟩ := Option.bind_eq_some_iff.mp next
    split at more
    · rename_i retire segments w left there
      cases more
      have mine := State.mem_swapClaims there rfl
        ((shelved.swapped k _ there rfl).part w mem_cons_self)
      have described := arranged.swaps _ (mem_of_getElem? there)
      refine { arranged with
        live := arranged.live_insert shelved
          (mem_append_right _ (mem_append_right _ mine))
        placed := arranged.placed_insert fun other => (shelved.install_apart other).2 mine
        swaps := fun other mem => ?_ }
      rcases mem_or_eq_of_mem_set mem with old | rfl
      · exact arranged.swaps other old
      · exact described
    · cases more
  | swapPublish k =>
    obtain ⟨m, up, more⟩ := Option.bind_eq_some_iff.mp next
    split at more
    · rename_i retire segments there turn
      obtain ⟨catalog, published, last⟩ := Option.bind_eq_some_iff.mp more
      cases last
      have inPlace : ∀ w ∈ segments, ∀ rows ∈ s.files.get? w.1.segmentId, rows = w.2 := by
        intro w mem rows found
        rcases (shelved.swapped k _ there rfl).filed w mem with later | done
        · cases later
        · exact Option.some.inj (found.symm.trans done)
      have described := arranged.swaps _ (mem_of_getElem? there)
      refine { arranged with
        published := by
          intro holder batch written held
          cases turn.symm.trans held
        live := arranged.live_published shelved inPlace described published
        swaps := fun other mem => ?_ }
      rcases mem_or_eq_of_mem_set mem with old | rfl
      · exact arranged.swaps other old
      · exact described
    · cases more
  | consolidate k bucket =>
    obtain ⟨m, up, more⟩ := Option.bind_eq_some_iff.mp next
    split at more
    · obtain ⟨catalog, done, last⟩ := Option.bind_eq_some_iff.mp more
      cases last
      obtain ⟨runs, rfl⟩ := Catalog.consolidate_runs done
      exact same rfl rfl rfl rfl rfl rfl
    · cases more

end

end TallyOwl.Segmented
