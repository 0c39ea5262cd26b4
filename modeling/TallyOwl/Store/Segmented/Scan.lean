import TallyOwl.Store.Segmented.Held
import TallyOwl.Store.Segmented.Read

/-! A scan of a running store (`visible_rows`). It looks at memory once and then at the
catalog twice, and commits and a seal may go on between any two of these looks. What it
returns is measured against what the store has: the open buffer, the batch that is not
published, and the live segments. -/
namespace TallyOwl.Segmented
open Lib Format Locate RowCodec List OrderedMap

/-- What a scan asks for: a project and a range of time, either of which may be left out. -/
structure Scope where
  projectId : Option Id
  range : Option (Int × Int × TimeBasis)

def Scope.inScope (scope : Scope) (row : EventRow) : Bool :=
  scope.projectId.all (fun project => row.projectId = project) &&
    scope.range.all fun (start, stop, basis) =>
      decide (start ≤ timeOf row basis ∧ timeOf row basis < stop)

def Scope.wanted (scope : Scope) (m : Manifest) : Bool :=
  scope.projectId.all (fun project => m.projectId = project) &&
    scope.range.all fun (start, stop, basis) =>
      decide ((rangeBy m basis).1 < stop ∧ start ≤ (rangeBy m basis).2)

def segmentsWhere (s : State) (wanted : Manifest → Bool) : List EventRow :=
  (s.catalog.manifests.filter wanted).flatMap (segmentRows s)

/-- `visible_rows`, from the memory it looked at and the states in which it looked at the
catalog: first for what is published, and then for the segments. -/
def visibleRows (floatText : UInt64 → String) (tombstones : List Tombstone) (scope : Scope)
    (m : Memory) (first second : State) : List EventRow :=
  let memory := unpublished first.catalog.manifests (memoryView scope.inScope m)
  let rows := memory ++ (segmentsWhere second scope.wanted).filter scope.inScope
  rows.filter fun row => !hiddenBy floatText tombstones row

def State.live (s : State) : List EventRow := s.catalog.manifests.flatMap (segmentRows s)

def State.stored (s : State) : List EventRow :=
  (s.up.elim [] fun m => unpublished s.catalog.manifests (memoryView (fun _ => true) m)) ++ s.live

/-- What is seen has every row that is asked for as often as it was stored before, none more
often than it is stored after, and no other row. -/
structure SeesEachOnce (asked : EventRow → Bool) (before after seen : List EventRow) : Prop where
  wanted : ∀ row ∈ seen, asked row = true
  all : ∀ row, asked row = true → before.count row ≤ seen.count row
  only : ∀ row, seen.count row ≤ after.count row

section
variable {asked : EventRow → Bool} {before after seen : List EventRow}

theorem SeesEachOnce.nodup (sees : SeesEachOnce asked before after seen) (once : after.Nodup) : seen.Nodup :=
  nodup_iff_count_le_one.mpr fun row =>
    (sees.only row).trans (nodup_iff_count_le_one.mp once row)

end

section
variable {s t : State} {scope : Scope}

theorem unpublished_memoryView (keep : EventRow → Bool) (manifests : List Manifest) (m : Memory) :
    unpublished manifests (memoryView keep m) = (unpublished manifests (memoryView (fun _ => true) m)).filter keep := by
  have asked : memoryView keep m = (memoryView (fun _ => true) m).kept keep := by
    simp [memoryView, MemoryView.kept]
  rw [asked, unpublished_kept]

theorem Scope.wanted_of_described {m : Manifest} {row : EventRow} (described : Described m row)
    (inside : scope.inScope row = true) : scope.wanted m = true := by
  obtain ⟨project, times⟩ := described
  obtain ⟨own, range⟩ := Bool.and_eq_true_iff.mp inside
  refine Bool.and_eq_true_iff.mpr ⟨?_, ?_⟩
  · rwa [project] at own
  · cases asked : scope.range with
    | none => rfl
    | some r =>
      obtain ⟨start, stop, basis⟩ := r
      simp only [asked, Option.all_some, decide_eq_true_eq] at range ⊢
      obtain ⟨low, high⟩ := times basis
      omega

theorem filter_segmentsWhere (described : ∀ m ∈ s.catalog.manifests, ∀ rows ∈ s.files.get? m.segmentId,
      ∀ row ∈ rows, Described m row) :
    (segmentsWhere s scope.wanted).filter scope.inScope = s.live.filter scope.inScope := by
  rw [segmentsWhere, State.live]
  generalize s.catalog.manifests = manifests at described
  induction manifests with
  | nil => rfl
  | cons m rest ih =>
    have later := ih fun n inside => described n (mem_cons_of_mem _ inside)
    simp only [filter_cons, flatMap_cons, filter_append]
    split
    · rw [flatMap_cons, filter_append, later]
    · rename_i pruned
      have none : (segmentRows s m).filter scope.inScope = [] := by
        refine filter_eq_nil_iff.mpr fun row inside held => pruned ?_
        cases found : s.files.get? m.segmentId with
        | none => simp [segmentRows, found] at inside
        | some rows =>
          rw [segmentRows, found, Option.getD_some] at inside
          exact Scope.wanted_of_described (described m mem_cons_self rows found row inside) held
      rw [none, later, nil_append]

end

section
variable {node : Node} {s t : State} {batch : Drained}

theorem Planned.rows (planned : Planned batch) :
    ((batch.plan.map (sealedSegment node batch)).flatMap Prod.snd).Perm batch.rows := by
  have parts : (batch.plan.map (sealedSegment node batch)).flatMap Prod.snd =
      (batch.plan.map Prod.fst).flatMap (projectRows batch) := by
    rw [flatMap_map, flatMap_map]
    rfl
  have keys : ∀ row ∈ batch.rows, projectOf row ∈ batch.plan.map Prod.fst := by
    intro row inside
    obtain ⟨id, mem⟩ := planned.covers row inside
    exact mem_map.mpr ⟨_, mem, rfl⟩
  rw [parts]
  by_cases one : batch.plan.length = 1
  · obtain ⟨p, only⟩ := length_eq_one_iff.mp one
    simp [only, projectRows]
  · have each : projectRows batch = fun project => batch.rows.filter fun row => projectOf row = project := by
      funext project
      rw [projectRows, if_neg one]
    rw [each]
    exact perm_flatMap_filter planned.distinct keys

/-- What a seal's publish does to what a read finds in the catalog. -/
structure Publishes (s t : State) (batch : Drained) : Prop where
  unseen : ∀ id ∈ batch.plan.map Prod.snd, id ∉ s.catalog.manifests.map Manifest.segmentId
  named : ∀ id, id ∈ t.catalog.manifests.map Manifest.segmentId ↔
    id ∈ s.catalog.manifests.map Manifest.segmentId ∨ id ∈ batch.plan.map Prod.snd
  live : t.live.Perm (s.live ++ batch.rows)

theorem Shelved.publishes {holder : Seal} {segments : List Written} {locator : Locator}
    {checkpoint : Option Nat} (shelved : Shelved node s) (arranged : Arranged s)
    (turn : s.turn = some holder) (stage : holder.stage = .writing batch segments [])
    (published : s.catalog.publishInOneTransaction [] (segments.map Prod.fst) locator checkpoint =
      some t.catalog) (files : t.files = s.files) : Publishes s t batch := by
  obtain ⟨plan, filed⟩ := shelved.planned holder batch segments _ turn stage
  have planned := arranged.planned batch (by rw [State.batch_eq turn, stage]; rfl)
  have ids : segments.map (fun w => w.1.segmentId) = batch.plan.map Prod.snd := by
    rw [plan, map_sealedSegment_id]
  have claims : s.sealClaims = segments.map fun w => w.1.segmentId := by
    simp [State.sealClaims, turn, stage, SealStage.claims]
  have mine : ∀ w ∈ segments, w.1.segmentId ∈ s.claimed := by
    intro w inside
    refine mem_append_left _ ?_
    rw [claims]
    exact mem_map.mpr ⟨w, inside, rfl⟩
  have distinct : ((segments.map Prod.fst).map Manifest.segmentId).Nodup := by
    have own := (List.nodup_append.mp shelved.distinct).1
    rw [claims] at own
    simpa [Function.comp_def] using own
  have tier : ∀ m ∈ segments.map Prod.fst, m.tier ≠ "" := by
    intro m inside
    rw [plan, map_map] at inside
    obtain ⟨p, -, rfl⟩ := mem_map.mp inside
    simp [sealedSegment, describe]
  have other : ∀ m ∈ s.catalog.manifests, ∀ n ∈ segments.map Prod.fst, n.segmentId ≠ m.segmentId := by
    intro m live n inside same
    obtain ⟨w, mem, rfl⟩ := mem_map.mp inside
    exact shelved.live_unclaimed live (same ▸ mine w mem)
  have now := shelved.recorded.manifests_published published distinct tier other
  rw [filter_eq_self.mpr fun m _ => by simp] at now
  refine ⟨?_, ?_, ?_⟩
  · intro id inside there
    rw [← ids] at inside
    obtain ⟨w, mem, rfl⟩ := mem_map.mp inside
    obtain ⟨m, live, same⟩ := mem_map.mp there
    exact other m live w.1 (mem_map.mpr ⟨w, mem, rfl⟩) same.symm
  · intro id
    rw [(now.map Manifest.segmentId).mem_iff, map_append, mem_append, ← ids]
    simp [Function.comp_def]
  · have rows : ∀ w ∈ segments, segmentRows t { w.1 with generation := s.catalog.generation + 1 } = w.2 := by
      intro w inside
      rcases filed.filed w inside with later | done
      · cases later
      · rw [segmentRows, files, done]
        rfl
    have same : segmentRows t = segmentRows s := by
      funext m
      rw [segmentRows, segmentRows, files]
    have parts : (s.catalog.manifests ++ (segments.map Prod.fst).map fun m : Manifest =>
        { m with generation := s.catalog.generation + 1 }).flatMap (segmentRows t) =
          s.live ++ segments.flatMap Prod.snd := by
      rw [flatMap_append, map_map, flatMap_map, State.live, ← same]
      refine congrArg (_ ++ ·) ?_
      rw [flatMap_def, flatMap_def]
      exact congrArg List.flatten (map_congr_left rows)
    have all : t.live.Perm (s.live ++ segments.flatMap Prod.snd) := parts ▸ now.flatMap_right (segmentRows t)
    exact all.trans (.append_left _ (plan ▸ planned.rows))

end

section
variable {node : Node} {s t : State} {m : Memory}

def Event.commitsOrSeals : Event → Bool
  | .commit _ _ _ | .call _ _ | .log _ | .sealStart _ | .sealing _ => true
  | _ => false

def Event.publishes : Event → Bool
  | .sealing .publish => true
  | _ => false

variable {manifests : List Manifest}

theorem hasAny_eq_false {ids : List Id} :
    hasAny manifests ids = false ↔ ∀ id ∈ ids, id ∉ manifests.map Manifest.segmentId := by
  simp only [hasAny, any_eq_false, decide_eq_true_eq]

theorem unpublished_all (manifests : List Manifest) (m : Memory) :
    unpublished manifests (memoryView (fun _ => true) m) = m.openRows ++
      (m.sealing.filter fun b => hasAny manifests b.segmentIds = false).flatMap SealingBatch.rows := by
  simp only [unpublished, memoryView, filter_true, filter_map, flatMap_map]
  rfl

/-- What a step that publishes nothing does to what a read finds. -/
structure Keeps (s t : State) : Prop where
  manifests : t.catalog.manifests = s.catalog.manifests
  live : t.live = s.live
  stored : ∀ row, s.stored.count row ≤ t.stored.count row

theorem Keeps.of_memory {m' : Memory} (segments : t.catalog.segments = s.catalog.segments)
    (files : t.files = s.files) (up : s.up = some m) (up' : t.up = some m')
    (more : ∀ row, (unpublished s.catalog.manifests (memoryView (fun _ => true) m)).count row ≤
      (unpublished s.catalog.manifests (memoryView (fun _ => true) m')).count row) : Keeps s t := by
  have manifests : t.catalog.manifests = s.catalog.manifests := by
    rw [Catalog.manifests, Catalog.manifests, segments]
  have live : t.live = s.live := by
    have same : segmentRows t = segmentRows s := by
      funext m
      rw [segmentRows, segmentRows, files]
    rw [State.live, State.live, manifests, same]
  refine ⟨manifests, live, fun row => ?_⟩
  rw [State.stored, State.stored, up, up', manifests, live, Option.elim, Option.elim,
    count_append, count_append]
  exact Nat.add_le_add_right (more row) _

theorem Keeps.of_same {m' : Memory} (segments : t.catalog.segments = s.catalog.segments)
    (files : t.files = s.files) (up : s.up = some m) (up' : t.up = some m')
    (rows : m'.openRows = m.openRows) (sealing : m'.sealing = m.sealing) : Keeps s t := by
  refine Keeps.of_memory segments files up up' fun row => ?_
  rw [unpublished_all, unpublished_all, rows, sealing]

variable {batch : Drained}

theorem Planned.empty (planned : Planned batch) (nothing : batch.plan = []) : batch.rows = [] := by
  refine eq_nil_iff_forall_not_mem.mpr fun row inside => ?_
  obtain ⟨id, mem⟩ := planned.covers row inside
  rw [nothing] at mem
  cases mem

theorem unpublished_unseen (saw : m.sealing = [batch.sealing])
    (unseen : hasAny manifests (batch.plan.map Prod.snd) = false) :
    unpublished manifests (memoryView (fun _ => true) m) = m.openRows ++ batch.rows := by
  rw [unpublished_all, saw, Drained.sealing]
  simp [unseen]

theorem unpublished_seen (saw : m.sealing = [batch.sealing]) (empty : batch.plan = [] → batch.rows = [])
    (live : ∀ id ∈ batch.plan.map Prod.snd, id ∈ manifests.map Manifest.segmentId) :
    unpublished manifests (memoryView (fun _ => true) m) = m.openRows := by
  rw [unpublished_all, saw, Drained.sealing]
  by_cases nothing : batch.plan = []
  · by_cases seen : hasAny manifests (batch.plan.map Prod.snd) = false <;> simp [empty nothing]
  · obtain ⟨p, mem⟩ := exists_mem_of_ne_nil _ nothing
    have mine : p.2 ∈ batch.plan.map Prod.snd := mem_map.mpr ⟨p, mem, rfl⟩
    have seen : hasAny manifests (batch.plan.map Prod.snd) = true :=
      any_eq_true.mpr ⟨_, mine, decide_eq_true (live _ mine)⟩
    simp [seen]

theorem Shelved.batch_unseen (shelved : Shelved node s) (batched : s.batch = some batch) :
    hasAny s.catalog.manifests (batch.plan.map Prod.snd) = false := by
  obtain ⟨holder, turn, unpublished⟩ := Option.bind_eq_some_iff.mp batched
  have claims : batch.plan.map Prod.snd = s.sealClaims := by
    rw [State.sealClaims, turn, Option.elim]
    cases stage : holder.stage with
    | drained b =>
      obtain rfl : b = batch := by simpa [stage, SealStage.unpublished] using unpublished
      rfl
    | writing b segments left =>
      obtain rfl : b = batch := by simpa [stage, SealStage.unpublished] using unpublished
      rw [SealStage.claims, (shelved.planned holder b segments left turn stage).1, map_sealedSegment_id]
    | _ => simp [stage, SealStage.unpublished] at unpublished
  refine hasAny_eq_false.mpr fun id inside there => ?_
  obtain ⟨m, live, rfl⟩ := mem_map.mp there
  exact shelved.live_unclaimed live (mem_append_left _ (claims ▸ inside))

theorem Arranged.lists_batch (arranged : Arranged s) (up : s.up = some m)
    (batched : s.batch = some batch) : m.sealing = [batch.sealing] := by
  obtain ⟨holder, turn, stage⟩ := Option.bind_eq_some_iff.mp batched
  have listed : s.listed = some batch := by
    rw [State.listed, turn]
    exact SealStage.listed_of_unpublished stage
  rw [arranged.sealing m up, listed]
  rfl

theorem Publishes.stored (publishes : Publishes s t batch) (arranged : Arranged s)
    (shelved : Shelved node s) (up : s.up = some m) (up' : t.up = some m)
    (batched : s.batch = some batch) : t.stored.Perm s.stored := by
  have saw := arranged.lists_batch up batched
  have before := unpublished_unseen saw (shelved.batch_unseen batched)
  have rest : unpublished t.catalog.manifests (memoryView (fun _ => true) m) = m.openRows :=
    unpublished_seen saw (arranged.planned batch batched).empty
      fun id mine => (publishes.named id).mpr (.inr mine)
  rw [State.stored, State.stored, up, up', Option.elim, Option.elim, before, rest, append_assoc]
  exact (publishes.live.trans perm_append_comm).append_left _

theorem Arranged.sealing_found {e : SealEvent} (arranged : Arranged s) (shelved : Shelved node s)
    (allowed : KeepsSegments s (.sealing e)) (next : Segmented.step node s (.sealing e) = some t) :
    Keeps s t ∨ e = .publish ∧ ∃ batch, s.batch = some batch ∧ Publishes s t batch ∧ t.stored.Perm s.stored := by
  obtain ⟨m, holder, up, turn, moved⟩ := step_sealing next
  have listed : s.listed = holder.stage.listed := by rw [State.listed, turn]; rfl
  cases moved with
  | stops _ result settled ends => exact .inl (Keeps.of_same rfl rfl up up rfl rfl)
  | checked stage => exact .inl (Keeps.of_same rfl rfl up up rfl rfl)
  | drained segmentIds stage free rows length =>
    -- The new ids are in no manifest, so the drained rows are still read from memory.
    have unseen : hasAny s.catalog.manifests segmentIds = false := by
      refine hasAny_eq_false.mpr fun id inside there => ?_
      obtain ⟨live, mem, rfl⟩ := mem_map.mp there
      obtain ⟨record, tier, -⟩ := Catalog.mem_manifests mem
      exact tier ((allowed.1.2 _ inside).2 live record rfl)
    refine .inl (Keeps.of_memory rfl rfl up rfl fun row => ?_)
    rw [unpublished_all, unpublished_all, Memory.drain]
    simp only [filter_append, flatMap_append, count_append, filter_cons,
      unseen, filter_nil, decide_true, if_true, flatMap_singleton, count_nil]
    omega
  | emptied now batch stage nothing => exact .inl (Keeps.of_same rfl rfl up up rfl rfl)
  | built now batch stage => exact .inl (Keeps.of_same rfl rfl up up rfl rfl)
  | wrote batch segments w left stage =>
    obtain ⟨-, filed⟩ := shelved.planned holder batch segments _ turn stage
    have mine : w.1.segmentId ∈ s.claimed := by
      refine mem_append_left _ ?_
      rw [State.sealClaims, turn, Option.elim, stage]
      exact mem_map.mpr ⟨w, filed.part w mem_cons_self, rfl⟩
    have live : ∀ m ∈ s.catalog.manifests, ((s.files.insert w.1.segmentId w.2).get? m.segmentId).getD [] =
        segmentRows s m := by
      intro m live
      rw [get?_insert, if_neg]
      · rfl
      · rintro same
        exact shelved.live_unclaimed live (same ▸ mine)
    have same : State.live { s with
        files := s.files.insert w.1.segmentId w.2
        turn := some { holder with stage := .writing batch segments left } } = s.live := by
      rw [State.live, State.live, flatMap_def, flatMap_def]
      exact congrArg List.flatten (map_congr_left live)
    refine .inl ⟨rfl, same, fun row => ?_⟩
    rw [State.stored, State.stored, same]
  | published batch segments catalog stage published =>
    have batched : s.batch = some batch := by rw [State.batch_eq turn, stage]; rfl
    have publishes := @Shelved.publishes node s { s with
      catalog
      turn := some { holder with
        stage := .published batch ((segments.map fun w => w.1.segmentId).getLast?) } }
      batch _ _ _ _ shelved arranged turn stage published rfl
    exact .inr ⟨rfl, batch, batched, publishes, publishes.stored arranged shelved up up batched⟩
  | reopened _ batch error now stage ends =>
    have batched : s.batch = some batch := by rw [State.batch_eq turn, stage]
    refine .inl (Keeps.of_memory rfl rfl up rfl fun row => ?_)
    rw [unpublished_unseen (arranged.lists_batch up batched) (shelved.batch_unseen batched),
      unpublished_all, Memory.reopen]
    simp only [count_append]
    omega
  | dropped batch written stage =>
    obtain ⟨empty, live⟩ := arranged.published holder batch written turn stage
    have sealing : m.sealing = [batch.sealing] := by
      rw [arranged.sealing m up, listed, stage]
      rfl
    refine .inl (Keeps.of_memory rfl rfl up rfl fun row => ?_)
    rw [unpublished_seen sealing empty fun id mine => mem_map.mpr (live id mine), unpublished_all]
    simp only [count_append]
    omega
  | reclaims written fault wal stage positive ran => exact .inl (Keeps.of_same rfl rfl up rfl rfl rfl)

theorem Arranged.found {e : Event} (arranged : Arranged s) (shelved : Shelved node s)
    (allowed : KeepsSegments s e) (kind : e.commitsOrSeals = true) (next : Segmented.step node s e = some t) :
    Keeps s t ∨ e = .sealing .publish ∧ ∃ batch, s.batch = some batch ∧ Publishes s t batch ∧
      t.stored.Perm s.stored := by
  cases e with
  | commit sourceId batchId rows =>
    obtain ⟨m, up, again⟩ := Option.bind_eq_some_iff.mp next
    cases again
    exact .inl (Keeps.of_same rfl rfl up up rfl rfl)
  | call i e =>
    obtain ⟨m, c, t', d, up, here, called, rfl⟩ := step_call next
    cases called with
    | numbered committedAt stage => exact .inl (Keeps.of_same rfl rfl up rfl rfl rfl)
    | entered committedAt watermark wal stage ran => exact .inl (Keeps.of_same rfl rfl up rfl rfl rfl)
    | extended now committedAt watermark position due stage =>
      refine .inl (Keeps.of_memory rfl rfl up rfl fun row => ?_)
      rw [unpublished_all, unpublished_all, Memory.extend]
      simp only [count_append]
      omega
    | _ => exact .inl (Keeps.of_same rfl rfl up up rfl rfl)
  | log e =>
    obtain ⟨m, up, more⟩ := Option.bind_eq_some_iff.mp next
    split at more
    · obtain ⟨wal, -, again⟩ := Option.bind_eq_some_iff.mp more
      cases again
      exact .inl (Keeps.of_same rfl rfl up rfl rfl rfl)
    · cases more
  | sealStart owner =>
    obtain ⟨m, up, more⟩ := Option.bind_eq_some_iff.mp next
    split at more
    · cases more
      exact .inl (Keeps.of_same rfl rfl up up rfl rfl)
    · split at more
      · cases more
        exact .inl (Keeps.of_same rfl rfl up up rfl rfl)
      · cases more
    · cases more
  | sealing e =>
    rcases arranged.sealing_found shelved allowed next with keeps | ⟨rfl, found⟩
    · exact .inl keeps
    · exact .inr ⟨rfl, found⟩
  | _ => cases kind

end

/-- A commit or a seal goes on, and draws no segment id that the scan saw in a batch. -/
def GoesOn (m : Memory) (s : State) (e : Event) : Prop :=
  KeepsSegments s e ∧ e.commitsOrSeals = true ∧
    ∀ id ∈ e.brings s, ∀ b ∈ m.sealing, id ∉ b.segmentIds

/-- Between the look at memory and the look for what is published: no batch is published,
but one that the scan saw as a batch or of which it has no row. -/
def BeforeFirst (scope : Scope) (m : Memory) (s : State) (e : Event) : Prop :=
  GoesOn m s e ∧ (e.publishes = true → ∀ batch ∈ s.batch, batch.sealing ∈ m.sealing ∨
    ∀ row ∈ batch.rows, row ∉ unpublished s.catalog.manifests (memoryView scope.inScope m))

/-- Between the two looks at the catalog: no batch is published of which the scan took a row
from memory. -/
def BeforeSecond (scope : Scope) (m : Memory) (first : State) (s : State) (e : Event) : Prop :=
  GoesOn m s e ∧ (e.publishes = true → ∀ batch ∈ s.batch,
    ∀ row ∈ batch.rows, row ∉ unpublished first.catalog.manifests (memoryView scope.inScope m))

section
variable {node : Node} {scope : Scope} {m : Memory} {before s t : State}

/-- What the scan took from memory makes with the live segments what the store has. -/
structure Adds (scope : Scope) (taken : List EventRow) (before s : State) : Prop where
  all : ∀ row, scope.inScope row = true → before.stored.count row ≤ (taken ++ s.live).count row
  only : ∀ row, scope.inScope row = true → (taken ++ s.live).count row ≤ s.stored.count row

theorem Adds.published {batch : Drained} {taken : List EventRow} (adds : Adds scope taken before s)
    (publishes : Publishes s t batch) (moves : t.stored.Perm s.stored)
    (apart : ∀ row ∈ batch.rows, row ∉ taken) : Adds scope taken before t := by
  have live : ∀ row, t.live.count row = s.live.count row + batch.rows.count row := fun row => by
    rw [publishes.live.count_eq, count_append]
  constructor
  · intro row asked
    have least := adds.all row asked
    rw [count_append] at least ⊢
    have now := live row
    omega
  · intro row asked
    have most := adds.only row asked
    rw [count_append] at most ⊢
    by_cases inside : row ∈ batch.rows
    · have absent := count_eq_zero.mpr (apart row inside)
      have held : t.live.count row ≤ t.stored.count row := by
        rw [State.stored, count_append]
        omega
      omega
    · have absent := count_eq_zero.mpr inside
      have now := live row
      have same := moves.count_eq row
      omega

theorem Adds.kept {taken : List EventRow} (adds : Adds scope taken before s) (keeps : Keeps s t) :
    Adds scope taken before t := by
  refine ⟨fun row asked => ?_, fun row asked => ?_⟩
  · rw [keeps.live]
    exact adds.all row asked
  · rw [keeps.live]
    exact (adds.only row asked).trans (keeps.stored row)

/-- The batch that is to be published is one the scan saw, or shares no id with those. -/
def Tells (m : Memory) (s : State) : Prop :=
  ∀ batch ∈ s.batch, batch.sealing ∈ m.sealing ∨
    ∀ b ∈ m.sealing, ∀ id ∈ b.segmentIds, id ∉ batch.plan.map Prod.snd

theorem tells_start (arranged : Arranged s) (up : s.up = some m) : Tells m s := by
  intro batch batched
  rw [arranged.lists_batch up batched]
  exact .inl (mem_singleton_self _)

variable {e : Event}

theorem batch_cases (kind : e.commitsOrSeals = true) (next : step node s e = some t) :
    t.batch = s.batch ∨ t.batch = none ∨ ∃ segmentIds batch, e = .sealing (.drain segmentIds) ∧
      t.batch = some batch ∧ batch.plan.map Prod.snd = segmentIds := by
  have same : t.turn = s.turn → t.batch = s.batch := by
    intro turn
    rw [State.batch, State.batch, turn]
  cases e with
  | commit sourceId batchId rows =>
    obtain ⟨m, up, again⟩ := Option.bind_eq_some_iff.mp next
    cases again
    exact .inl (same rfl)
  | call i e =>
    obtain ⟨m, c, t', d, up, here, called, rfl⟩ := step_call next
    cases called <;> exact .inl (same rfl)
  | log e =>
    obtain ⟨m, up, more⟩ := Option.bind_eq_some_iff.mp next
    split at more
    · obtain ⟨wal, -, again⟩ := Option.bind_eq_some_iff.mp more
      cases again
      exact .inl (same rfl)
    · cases more
  | sealStart owner =>
    obtain ⟨m, up, more⟩ := Option.bind_eq_some_iff.mp next
    split at more
    · cases more
      exact .inr (.inl rfl)
    · split at more
      · cases more
        exact .inr (.inl rfl)
      · cases more
    · cases more
  | sealing e =>
    obtain ⟨m, holder, up, turn, moved⟩ := step_sealing next
    cases moved with
    | drained segmentIds stage free rows length =>
      exact .inr (.inr ⟨segmentIds, _, rfl, rfl, map_snd_plan length⟩)
    | built now batch stage =>
      refine .inl ?_
      rw [State.batch_eq turn, stage]
      rfl
    | wrote batch segments w left stage =>
      refine .inl ?_
      rw [State.batch_eq turn, stage]
      rfl
    | _ => exact .inr (.inl rfl)
  | _ => cases kind

theorem Tells.step (tells : Tells m s) (goes : GoesOn m s e) (next : Segmented.step node s e = some t) : Tells m t := by
  obtain ⟨-, kind, fresh⟩ := goes
  rcases batch_cases kind next with same | none | ⟨segmentIds, drained, rfl, now, ids⟩
  · rw [Tells, same]
    exact tells
  · rw [Tells, none]
    rintro _ ⟨⟩
  · rw [Tells, now]
    rintro _ ⟨⟩
    refine .inr fun b inside id mine there => ?_
    rw [ids] at there
    exact fresh id there b inside mine

theorem Adds.moved {batch : Drained}
    (adds : Adds scope (unpublished s.catalog.manifests (memoryView scope.inScope m)) before s)
    (publishes : Publishes s t batch) (moves : t.stored.Perm s.stored)
    (planned : Planned batch) (saw : m.sealing = [batch.sealing]) :
    Adds scope (unpublished t.catalog.manifests (memoryView scope.inScope m)) before t := by
  have first := unpublished_unseen saw (hasAny_eq_false.mpr publishes.unseen)
  have second : unpublished t.catalog.manifests (memoryView (fun _ => true) m) = m.openRows :=
    unpublished_seen saw planned.empty fun id mine => (publishes.named id).mpr (.inr mine)
  have same : ∀ row, scope.inScope row = true →
      (unpublished t.catalog.manifests (memoryView scope.inScope m) ++ t.live).count row =
        (unpublished s.catalog.manifests (memoryView scope.inScope m) ++ s.live).count row := by
    intro row asked
    rw [unpublished_memoryView scope.inScope t.catalog.manifests,
      unpublished_memoryView scope.inScope s.catalog.manifests, first, second, count_append,
      count_append, count_filter asked, count_filter asked, count_append,
      publishes.live.count_eq, count_append]
    omega
  refine ⟨fun row asked => ?_, fun row asked => ?_⟩
  · rw [same row asked]
    exact adds.all row asked
  · rw [same row asked, moves.count_eq row]
    exact adds.only row asked

theorem Adds.first (adds : Adds scope (unpublished s.catalog.manifests (memoryView scope.inScope m)) before s)
    (arranged : Arranged s) (shelved : Shelved node s) (tells : Tells m s) (few : m.sealing.length ≤ 1)
    (allowed : BeforeFirst scope m s e) (next : step node s e = some t) :
    Adds scope (unpublished t.catalog.manifests (memoryView scope.inScope m)) before t := by
  obtain ⟨⟨keeps, kind, -⟩, condition⟩ := allowed
  rcases arranged.found shelved keeps kind next with kept | ⟨rfl, batch, batched, publishes, moves⟩
  · rw [kept.manifests]
    exact adds.kept kept
  · have seen : batch.sealing ∈ m.sealing →
        Adds scope (unpublished t.catalog.manifests (memoryView scope.inScope m)) before t := by
      intro inside
      refine adds.moved publishes moves (arranged.planned batch batched) ?_
      obtain ⟨b, only⟩ := length_eq_one_iff.mp (le_antisymm few (length_pos_of_mem inside))
      rw [only, mem_singleton] at inside
      rw [only, inside]
    rcases condition rfl batch batched with inside | apart
    · exact seen inside
    rcases tells batch batched with inside | other
    · exact seen inside
    have same : unpublished t.catalog.manifests (memoryView scope.inScope m) =
        unpublished s.catalog.manifests (memoryView scope.inScope m) := by
      refine unpublished_congr fun b inside => ?_
      obtain ⟨held, there, rfl⟩ := mem_map.mp inside
      refine Bool.eq_iff_iff.mpr ?_
      simp only [hasAny, any_eq_true, decide_eq_true_eq]
      refine exists_congr fun id => and_congr_right fun mine => ?_
      rw [publishes.named]
      exact or_iff_left (other held there id mine)
    rw [same]
    exact adds.published publishes moves apart

theorem Adds.sees {first : State} {floatText : UInt64 → String} {tombstones : List Tombstone} {second : State}
    (adds : Adds scope (unpublished first.catalog.manifests (memoryView scope.inScope m)) before second)
    (arranged : Arranged second) : SeesEachOnce (fun row => scope.inScope row && !hiddenBy floatText tombstones row)
      before.stored second.stored (visibleRows floatText tombstones scope m first second) := by
  have seen : ∀ row, scope.inScope row = true →
      (unpublished first.catalog.manifests (memoryView scope.inScope m) ++
        (segmentsWhere second scope.wanted).filter scope.inScope).count row =
      (unpublished first.catalog.manifests (memoryView scope.inScope m) ++ second.live).count row := by
    intro row asked
    rw [filter_segmentsWhere arranged.live, count_append, count_append, count_filter asked]
  have only : ∀ row ∈ unpublished first.catalog.manifests (memoryView scope.inScope m) ++
      (segmentsWhere second scope.wanted).filter scope.inScope, scope.inScope row = true := by
    intro row inside
    rcases mem_append.mp inside with memory | stored
    · rw [unpublished_memoryView] at memory
      exact (List.mem_filter.mp memory).2
    · exact (List.mem_filter.mp stored).2
  refine ⟨fun row inside => ?_, fun row asked => ?_, fun row => ?_⟩
  · obtain ⟨there, visible⟩ := List.mem_filter.mp inside
    exact Bool.and_eq_true_iff.mpr ⟨only row there, visible⟩
  · obtain ⟨asked, visible⟩ := Bool.and_eq_true_iff.mp asked
    rw [visibleRows, count_filter (p := fun row => !hiddenBy floatText tombstones row) visible, seen row asked]
    exact adds.all row asked
  · by_cases inside : row ∈ visibleRows floatText tombstones scope m first second
    · obtain ⟨there, visible⟩ := List.mem_filter.mp inside
      have asked := only row there
      rw [visibleRows, count_filter (p := fun row => !hiddenBy floatText tombstones row) visible, seen row asked]
      exact adds.only row asked
    · rw [count_eq_zero.mpr inside]
      exact Nat.zero_le _

end

section
variable {node : Node} {tombstones : List Tombstone} {scope : Scope} {m : Memory} {before first second : State}

/-- In every run of commits and seals around a scan: what it returns is each row of the scope
that is not erased, as often as it was stored when the scan began at least, and no row more
often than it is stored at the end. -/
theorem scan_sees_each_once (run : Reach (step node) (fun s e => KeepsSegments s e ∧ WellDescribed e) .empty before)
    (up : before.up = some m) (looks : Reach (step node) (BeforeFirst scope m) before first)
    (looksAgain : Reach (step node) (BeforeSecond scope m first) first second) :
    SeesEachOnce (fun row => scope.inScope row && !hiddenBy node.floatText tombstones row)
      before.stored second.stored (visibleRows node.floatText tombstones scope m first second) := by
  obtain ⟨shelved, arranged⟩ : Shelved node before ∧ Arranged before :=
    Reach.invariant (fun s => Shelved node s ∧ Arranged s) ⟨.empty, .empty⟩
      (fun s e t known allowed next => ⟨(known.1.step allowed.1 next).1,
        known.2.step known.1 allowed.1 allowed.2 next⟩) run
  have goes : ∀ {s t e}, Shelved node s → Arranged s → GoesOn m s e → step node s e = some t →
      Shelved node t ∧ Arranged t := by
    intro s t e shelved arranged allowed next
    refine ⟨(shelved.step allowed.1 next).1, arranged.step shelved allowed.1 ?_ next⟩
    cases e <;> first | trivial | cases allowed.2.1
  have few : m.sealing.length ≤ 1 := by
    rw [arranged.sealing m up, List.length_map]
    exact Option.length_toList_le
  -- The same facts carry both parts of the run.
  have taken : Adds scope (unpublished before.catalog.manifests (memoryView scope.inScope m)) before before := by
    have same : ∀ row, scope.inScope row = true →
        (unpublished before.catalog.manifests (memoryView scope.inScope m) ++ before.live).count row =
          before.stored.count row := by
      intro row asked
      rw [unpublished_memoryView, State.stored, up, Option.elim, List.count_append, List.count_append,
        List.count_filter asked]
    exact ⟨fun row asked => (same row asked).ge, fun row asked => (same row asked).le⟩
  obtain ⟨shelved, arranged, -, adds⟩ : Shelved node first ∧ Arranged first ∧ Tells m first ∧
      Adds scope (unpublished first.catalog.manifests (memoryView scope.inScope m)) before first := by
    refine Reach.invariant (fun s => Shelved node s ∧ Arranged s ∧ Tells m s ∧
        Adds scope (unpublished s.catalog.manifests (memoryView scope.inScope m)) before s)
      ⟨shelved, arranged, tells_start arranged up, taken⟩ ?_ looks
    rintro s e t ⟨shelved, arranged, tells, adds⟩ allowed next
    obtain ⟨shelved', arranged'⟩ := goes shelved arranged allowed.1 next
    exact ⟨shelved', arranged', tells.step allowed.1 next,
      adds.first arranged shelved tells few allowed next⟩
  obtain ⟨-, arranged, adds⟩ : Shelved node second ∧ Arranged second ∧
      Adds scope (unpublished first.catalog.manifests (memoryView scope.inScope m)) before second := by
    refine Reach.invariant (fun s => Shelved node s ∧ Arranged s ∧
        Adds scope (unpublished first.catalog.manifests (memoryView scope.inScope m)) before s)
      ⟨shelved, arranged, adds⟩ ?_ looksAgain
    rintro s e t ⟨shelved, arranged, adds⟩ ⟨allowed, condition⟩ next
    obtain ⟨shelved', arranged'⟩ := goes shelved arranged allowed next
    refine ⟨shelved', arranged', ?_⟩
    rcases arranged.found shelved allowed.1 allowed.2.1 next with keeps | ⟨rfl, batch, batched, publishes, moves⟩
    · exact adds.kept keeps
    · exact adds.published publishes moves (condition rfl batch batched)
  exact adds.sees arranged

end

instance (m : Memory) (s : State) (e : Event) : Decidable (GoesOn m s e) :=
  have : Decidable (∀ id ∈ e.brings s, ∀ b ∈ m.sealing, id ∉ b.segmentIds) := List.decidableBAll _ _
  inferInstanceAs (Decidable (_ ∧ _ ∧ _))

instance (scope : Scope) (m : Memory) (s : State) (e : Event) : Decidable (BeforeFirst scope m s e) :=
  inferInstanceAs (Decidable (_ ∧ _))

instance (scope : Scope) (m : Memory) (first s : State) (e : Event) :
    Decidable (BeforeSecond scope m first s e) := inferInstanceAs (Decidable (_ ∧ _))

def WellDescribed.plain : Event → Bool
  | .install _ | .swap _ _ => false
  | _ => true

def storeRun (s : State) (e : Event) : Prop := KeepsSegments s e ∧ WellDescribed.plain e = true

instance (s : State) (e : Event) : Decidable (storeRun s e) := inferInstanceAs (Decidable (_ ∧ _))

theorem wellDescribed_of_plain {e : Event} (plain : WellDescribed.plain e = true) : WellDescribed e := by
  cases e <;> trivial

theorem Reach.of_storeRun {node : Node} {s : State} (run : Reach (step node) storeRun .empty s) :
    Reach (step node) (fun s e => KeepsSegments s e ∧ WellDescribed e) .empty s :=
  run.weaken fun _ _ allowed => ⟨allowed.1, wellDescribed_of_plain allowed.2⟩

def everything : Scope := ⟨none, none⟩

/-- The batch that the scan saw is published before the scan asks what is published. -/
theorem scan_sees_each_once_sealed :
    ∃ (before : State) (m : Memory) (first second : State), before.up = some m ∧ before.stored ≠ [] ∧
      (visibleRows zeroNode.floatText [] everything m first second).map EventRow.eventId = [7] ∧
      SeesEachOnce (fun row => everything.inScope row && !hiddenBy zeroNode.floatText [] row)
        before.stored second.stored (visibleRows zeroNode.floatText [] everything m first second) := by
  obtain ⟨before, run, found⟩ := @Reach.of_exec_any _ _ (step zeroNode) storeRun _ .empty
    (.openWith 1 :: commitAlone 0 0 1 1 [EventRow.new 7 "event" "opened" 0] ++ (sealAlone [5]).take 5)
    (fun before => decide (before.stored ≠ []) && before.up.any fun m =>
      (exec (guarded (step zeroNode) (BeforeFirst everything m)) before
        [.sealing .publish, .sealing .drop]).any fun first =>
      (exec (guarded (step zeroNode) (BeforeSecond everything m first)) first
        (commitAlone 1 1 1 2 [EventRow.new 8 "event" "closed" 5])).any fun second =>
      (visibleRows zeroNode.floatText [] everything m first second).map EventRow.eventId = [7])
    (by decide +kernel)
  obtain ⟨some, found⟩ := Bool.and_eq_true_iff.mp found
  obtain ⟨m, up, found⟩ := (Option.any_eq_true _ _).mp found
  obtain ⟨first, looks, found⟩ := Reach.of_exec_any found
  obtain ⟨second, again, events⟩ := Reach.of_exec_any found
  exact ⟨before, m, first, second, up, of_decide_eq_true some, of_decide_eq_true events,
    scan_sees_each_once (Reach.of_storeRun run) up looks again⟩

/-- A row is in the open buffer when the scan looks at memory, and in a segment when it asks
for the segments: it is read from both. -/
theorem scan_sees_row_twice : ∃ (before : State) (m : Memory) (first second : State),
      Reach (step zeroNode) (fun s e => KeepsSegments s e ∧ WellDescribed e) .empty before ∧ before.up = some m ∧ Reach (step zeroNode) (GoesOn m) before first ∧
      Reach (step zeroNode) (GoesOn m) first second ∧ before.stored.Nodup ∧ second.stored.Nodup ∧
      ¬ (visibleRows zeroNode.floatText [] everything m first second).Nodup ∧
      ¬ SeesEachOnce (fun row => everything.inScope row && !hiddenBy zeroNode.floatText [] row)
        before.stored second.stored (visibleRows zeroNode.floatText [] everything m first second) := by
  obtain ⟨before, run, found⟩ := @Reach.of_exec_any _ _ (step zeroNode) storeRun _ .empty
    (.openWith 1 :: commitAlone 0 0 1 1 [EventRow.new 7 "event" "opened" 0])
    (fun before => decide (before.stored.map EventRow.eventId).Nodup && before.up.any fun m =>
      (exec (guarded (step zeroNode) (GoesOn m)) before ((sealAlone [5]).take 6)).any fun first =>
      (exec (guarded (step zeroNode) (GoesOn m)) first [.sealing .drop]).any fun second : State =>
      decide (second.stored.map EventRow.eventId).Nodup &&
        decide (∃ row ∈ second.stored,
          1 < (visibleRows zeroNode.floatText [] everything m first second).count row))
    (by decide +kernel)
  obtain ⟨once, found⟩ := Bool.and_eq_true_iff.mp found
  obtain ⟨m, up, found⟩ := (Option.any_eq_true _ _).mp found
  obtain ⟨first, looks, found⟩ := Reach.of_exec_any found
  obtain ⟨second, again, found⟩ := Reach.of_exec_any found
  obtain ⟨still, twice⟩ := Bool.and_eq_true_iff.mp found
  have once := List.Nodup.of_map _ (of_decide_eq_true once)
  have still := List.Nodup.of_map _ (of_decide_eq_true still)
  obtain ⟨row, -, most⟩ := of_decide_eq_true twice
  have twice : ¬ (visibleRows zeroNode.floatText [] everything m first second).Nodup := fun nodup =>
    absurd (List.nodup_iff_count_le_one.mp nodup row) (by omega)
  exact ⟨before, m, first, second, Reach.of_storeRun run, up, looks, again, once, still, twice,
    fun sees => twice (sees.nodup still)⟩

end TallyOwl.Segmented
