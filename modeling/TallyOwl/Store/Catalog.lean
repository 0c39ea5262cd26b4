import TallyOwl.Store.Locator
import TallyOwl.Store.Tombstone

/-! The transactional catalog (`catalog.rs`). Each table is an ordered map from the
parts of its key to the decoded record; locator runs stay bytes, because the bytes
are what a consolidation reads back. Every transaction is one function here, and one
the engine refuses changes nothing. -/
open List TallyOwl.Lib.OrderedMap

namespace TallyOwl
open Lib Format Locate

structure Receipt where
  sourceId : Id
  batchId : Id
  accepted : Nat
  committedAt : Int
  commitWatermark : Nat
  logPosition : Nat
  deriving DecidableEq

structure Manifest where
  segmentId : Id
  contentAddress : Bytes
  tabletId : Nat
  virtualShard : Nat
  workspaceId : Id
  projectId : Id
  kinds : List String
  occurredRange : Int × Int
  receivedRange : Int × Int
  committedRange : Int × Int
  logRange : Nat × Nat
  rowCount : Nat
  byteCount : Nat
  generation : Nat
  tier : String
  relativePath : String
  deriving DecidableEq

/-- The record that marks a segment retired: its other fields read as their defaults. -/
def Manifest.retired (segmentId : Id) (generation : Nat) : Manifest where
  segmentId := segmentId
  contentAddress := List.replicate 32 0
  tabletId := 0
  virtualShard := 0
  workspaceId := 0
  projectId := 0
  kinds := []
  occurredRange := (0, 0)
  receivedRange := (0, 0)
  committedRange := (0, 0)
  logRange := (0, 0)
  rowCount := 0
  byteCount := 0
  generation := generation
  tier := ""
  relativePath := ""

structure Catalog where
  /-- By source and batch. -/
  receipts : OrderedMap (Id ×ₗ Id) Receipt
  watermark : Nat × Nat
  segments : OrderedMap (ℕ ×ₗ Id) Manifest
  locatorRuns : OrderedMap (ℤ ×ₗ ℕ) Bytes
  generation : Nat
  logCheckpoint : Option Nat
  tombstones : OrderedMap (ℕ ×ₗ Id) Tombstone
  tombstoneGeneration : Nat
  erasureApplied : Nat × Nat

namespace Catalog

def empty : Catalog where
  receipts := ∅
  watermark := (0, 0)
  segments := ∅
  locatorRuns := ∅
  generation := 0
  logCheckpoint := none
  tombstones := ∅
  tombstoneGeneration := 0
  erasureApplied := (0, 0)

instance : Inhabited Catalog := ⟨empty⟩

def receipt (c : Catalog) (sourceId batchId : Id) : Option Receipt :=
  c.receipts.get? (toLex (sourceId, batchId))

/-- Record a receipt and raise the stored pair, each half to the highest seen. -/
def commitReceipt (c : Catalog) (r : Receipt) : Catalog :=
  { c with
    receipts := c.receipts.insert (toLex (r.sourceId, r.batchId)) r
    watermark := (max r.commitWatermark c.watermark.1, max r.logPosition c.watermark.2) }

def newer (held : OrderedMap Id Manifest) (m : Manifest) : OrderedMap Id Manifest :=
  match held.get? m.segmentId with
  | some other => if m.generation > other.generation then held.insert m.segmentId m else held
  | none => held.insert m.segmentId m

def newest (records : List Manifest) : OrderedMap Id Manifest := records.foldl newer ∅

def manifests (c : Catalog) : List Manifest :=
  (newest c.segments.values).values.filter fun m => m.tier ≠ ""

def retiredSegments (c : Catalog) : List Id :=
  ((newest c.segments.values).values.filter fun m => m.tier = "").map Manifest.segmentId

def maxValueBytes : Nat := 3 * 1024 ^ 3

/-- Retire, publish, index and move the checkpoint, under one new generation. -/
def publishInOneTransaction (c : Catalog) (retire : List Id) (publish : List Manifest)
    (locator : Locator) (checkpoint : Option Nat) : Option Catalog :=
  let generation := c.generation + 1
  let runs := locator.runs.values.filter fun run => run.entries ≠ []
  if generation < 2 ^ 64 ∧ ∀ run ∈ runs, run.encode.length ≤ maxValueBytes then
    let retired := retire.foldl (fun segments id =>
      segments.insert (toLex (generation, id)) (.retired id generation)) c.segments
    some { c with
      segments := publish.foldl (fun segments m =>
        segments.insert (toLex (generation, m.segmentId)) { m with generation := generation })
        retired
      locatorRuns := runs.foldl (fun stored run =>
        stored.insert (toLex (run.bucket, generation)) run.encode) c.locatorRuns
      generation := generation
      logCheckpoint := match checkpoint with
        | some p => some (max p (c.logCheckpoint.getD 0))
        | none => c.logCheckpoint }
  else none

def publishWithLocator (c : Catalog) (publish : List Manifest) (locator : Locator) :
    Option Catalog :=
  c.publishInOneTransaction [] publish locator none

def publish (c : Catalog) (manifests : List Manifest) : Option Catalog :=
  c.publishWithLocator manifests .new

def publishSealed (c : Catalog) (publish : List Manifest) (locator : Locator) (checkpoint : Nat) :
    Option Catalog :=
  c.publishInOneTransaction [] publish locator (some checkpoint)

def swapWithLocator (c : Catalog) (retire : List Id) (publish : List Manifest)
    (locator : Locator) : Option Catalog :=
  c.publishInOneTransaction retire publish locator none

/-- Drop every segment record and publish the manifests a scan of the files found. -/
def rebuildFromManifests (c : Catalog) (manifests : List Manifest) : Option Catalog :=
  { c with segments := ∅ }.publish manifests

def decodeRuns (stored : List Bytes) : Except FormatError (List LocatorRun) :=
  stored.mapM LocatorRun.decode

def locator (c : Catalog) : Except FormatError Locator :=
  (decodeRuns c.locatorRuns.values).map Locator.fromAllRuns

def bucketRuns (c : Catalog) (bucket : Int) : OrderedMap (ℤ ×ₗ ℕ) Bytes :=
  c.locatorRuns.filter fun key _ => (ofLex key).1 = bucket

def otherRuns (c : Catalog) (bucket : Int) : OrderedMap (ℤ ×ₗ ℕ) Bytes :=
  c.locatorRuns.filter fun key _ => (ofLex key).1 ≠ bucket

/-- Combine the stored runs of one bucket, less the named retired segments. The newest
key holds the result. -/
def consolidateLocator (c : Catalog) (bucket : Int) (retired : List Id) : Option Catalog :=
  match (c.bucketRuns bucket).entries.getLast? with
  | none => some c
  | some keep =>
      match decodeRuns (c.bucketRuns bucket).values with
      | .error _ => none
      | .ok runs =>
          let combined := (Locator.fromAllRuns runs).retainSegments fun id => id ∉ retired
          match combined.runs.values.find? fun run => run.entries ≠ [] with
          | none => some { c with locatorRuns := c.otherRuns bucket }
          | some run =>
              if run.encode.length ≤ maxValueBytes then
                some { c with locatorRuns := (c.otherRuns bucket).insert keep.1 run.encode }
              else none

/-- A map from a segment to the newest of the records seen so far. -/
def Newest (seen : List Manifest) (held : OrderedMap Id Manifest) : Prop :=
  (∀ id m, (id, m) ∈ held.entries → m ∈ seen ∧ m.segmentId = id ∧
    ∀ r ∈ seen, r.segmentId = id → r.generation ≤ m.generation) ∧
  ∀ r ∈ seen, ∃ m, (r.segmentId, m) ∈ held.entries

theorem Newest.newer {seen : List Manifest} {held : OrderedMap Id Manifest}
    (so : Newest seen held) (m : Manifest) : Newest (seen ++ [m]) (newer held m) := by
  obtain ⟨best, covers⟩ := so
  have inserted : (∀ r ∈ seen, r.segmentId = m.segmentId → r.generation ≤ m.generation) →
      Newest (seen ++ [m]) (held.insert m.segmentId m) := by
    intro top
    constructor
    · intro id n inside
      rcases mem_insert.mp inside with same | ⟨old, other⟩
      · obtain ⟨rfl, rfl⟩ := Prod.mk.inj same
        refine ⟨by simp, rfl, fun r there same => ?_⟩
        rcases mem_append.mp there with earlier | last
        · exact top r earlier same
        · rw [mem_singleton.mp last]
      · obtain ⟨there, rfl, highest⟩ := best id n old
        refine ⟨mem_append_left _ there, rfl, fun r more same => ?_⟩
        rcases mem_append.mp more with earlier | last
        · exact highest r earlier same
        · exact absurd (mem_singleton.mp last ▸ same).symm other
    · intro r there
      by_cases same : r.segmentId = m.segmentId
      · exact ⟨m, mem_insert.mpr (.inl (by rw [same]))⟩
      · rcases mem_append.mp there with earlier | last
        · obtain ⟨n, found⟩ := covers r earlier
          exact ⟨n, mem_insert.mpr (.inr ⟨found, same⟩)⟩
        · exact absurd (congrArg Manifest.segmentId (mem_singleton.mp last)) same
  unfold Catalog.newer
  split
  · rename_i other found
    obtain ⟨there, own, highest⟩ := best _ _ (get?_eq_some.mp found)
    split
    · rename_i larger
      exact inserted fun r earlier same => (highest r earlier same).trans (le_of_lt larger)
    · rename_i smaller
      constructor
      · intro id n inside
        obtain ⟨old, rfl, top⟩ := best id n inside
        refine ⟨mem_append_left _ old, rfl, fun r more same => ?_⟩
        rcases mem_append.mp more with earlier | last
        · exact top r earlier same
        · obtain rfl := mem_singleton.mp last
          rw [same] at found
          obtain rfl := eq_of_mem inside (get?_eq_some.mp found)
          exact not_lt.mp smaller
      · intro r more
        rcases mem_append.mp more with earlier | last
        · exact covers r earlier
        · exact ⟨other, mem_singleton.mp last ▸ get?_eq_some.mp found⟩
  · rename_i absent
    refine inserted fun r earlier same => ?_
    obtain ⟨n, found⟩ := covers r earlier
    rw [same] at found
    exact absurd found (get?_eq_none.mp absent n)

theorem newest_newest (records : List Manifest) : Newest records (newest records) := by
  have folded : ∀ seen held, Newest seen held →
      Newest (seen ++ records) (records.foldl newer held) := by
    induction records with
    | nil =>
      intro seen held so
      rwa [append_nil]
    | cons m rest ih =>
      intro seen held so
      have next := ih (seen ++ [m]) (newer held m) (so.newer m)
      rwa [append_assoc, singleton_append] at next
  exact folded [] ∅ ⟨by simp, by simp⟩

variable {c : Catalog} {m : Manifest}

theorem mem_manifests (live : m ∈ c.manifests) : m ∈ c.segments.values ∧ m.tier ≠ "" ∧
      ∀ r ∈ c.segments.values, r.segmentId = m.segmentId → r.generation ≤ m.generation := by
  obtain ⟨inside, tier⟩ := List.mem_filter.mp live
  obtain ⟨id, there⟩ := mem_values.mp inside
  obtain ⟨record, rfl, newest⟩ := (newest_newest c.segments.values).1 _ _ there
  exact ⟨record, by simpa using tier, newest⟩

/-- Keys agree with the records under them, and no record is newer than the catalog. -/
def Recorded (c : Catalog) : Prop :=
  ∀ x ∈ c.segments.entries,
    x.1 = toLex (x.2.generation, x.2.segmentId) ∧ x.2.generation ≤ c.generation

/-- The records are in order, and every stored run reads back. -/
structure Keyed (c : Catalog) : Prop where
  segments : c.Recorded
  runs : ∀ x ∈ c.locatorRuns.entries, (ofLex x.1).2 ≤ c.generation ∧
    ∃ run, LocatorRun.decode x.2 = .ok run ∧ run.bucket = (ofLex x.1).1 ∧ InI64 run.bucket

theorem recorded_empty : empty.Recorded := by simp [Recorded, empty]

theorem Recorded.generation_le (recorded : c.Recorded)
    (inside : m ∈ c.segments.values) : m.generation ≤ c.generation := by
  obtain ⟨key, there⟩ := mem_values.mp inside
  exact (recorded _ there).2

theorem Recorded.eq_of_same (recorded : c.Recorded) {m n : Manifest}
    (first : m ∈ c.segments.values) (second : n ∈ c.segments.values)
    (generation : m.generation = n.generation) (id : m.segmentId = n.segmentId) : m = n := by
  obtain ⟨k, there⟩ := mem_values.mp first
  obtain ⟨l, found⟩ := mem_values.mp second
  have same : k = l := by
    have left := (recorded _ there).1
    have right := (recorded _ found).1
    simp only at left right
    rw [left, right, generation, id]
  subst same
  exact eq_of_mem there found

theorem Recorded.mem_manifests_iff (recorded : c.Recorded) : m ∈ c.manifests ↔ m ∈ c.segments.values ∧ m.tier ≠ "" ∧
      ∀ r ∈ c.segments.values, r.segmentId = m.segmentId → r.generation ≤ m.generation := by
  refine ⟨mem_manifests, fun ⟨record, tier, highest⟩ => ?_⟩
  obtain ⟨best, covers⟩ := newest_newest c.segments.values
  obtain ⟨n, found⟩ := covers m record
  obtain ⟨there, same, top⟩ := best _ _ found
  obtain rfl := recorded.eq_of_same record there
    (le_antisymm (top m record rfl) (highest n there same)) same.symm
  exact List.mem_filter.mpr ⟨mem_values.mpr ⟨_, found⟩, by simpa using tier⟩

theorem pairwise_manifests (c : Catalog) : c.manifests.Pairwise fun m n => m.segmentId < n.segmentId := by
  have best := (newest_newest c.segments.values).1
  have keys : (newest c.segments.values).values.map Manifest.segmentId =
      (newest c.segments.values).entries.map Prod.fst := by
    rw [OrderedMap.values, map_map]
    exact map_congr_left fun x inside => (best x.1 x.2 inside).2.1
  have ascending : ((newest c.segments.values).values.map Manifest.segmentId).Pairwise (· < ·) := by
    rw [keys]
    exact pairwise_map.mpr (newest c.segments.values).ascending
  exact (pairwise_map.mp ascending).sublist filter_sublist

theorem nodup_manifests (c : Catalog) : (c.manifests.map Manifest.segmentId).Nodup :=
  pairwise_map.mpr (c.pairwise_manifests.imp fun less => less.ne)

def StoresEntry (c : Catalog) (e : Entry) : Prop :=
  ∃ x ∈ c.locatorRuns.entries, ∃ run, LocatorRun.decode x.2 = .ok run ∧ e ∈ run.entries

theorem decodeRuns_ok {stored : List Bytes} (whole : ∀ bytes ∈ stored, ∃ run, LocatorRun.decode bytes = .ok run) :
    ∃ runs, decodeRuns stored = .ok runs ∧ ∀ run, run ∈ runs ↔ ∃ bytes ∈ stored, LocatorRun.decode bytes = .ok run := by
  induction stored with
  | nil => exact ⟨[], rfl, by simp⟩
  | cons bytes rest ih =>
    obtain ⟨run, here⟩ := whole bytes mem_cons_self
    obtain ⟨runs, decoded, same⟩ := ih fun b inside => whole b (mem_cons_of_mem _ inside)
    refine ⟨run :: runs, ?_, fun other => ?_⟩
    · unfold decodeRuns at decoded ⊢
      rw [mapM_cons, here, decoded]
      rfl
    · simp only [mem_cons, same, exists_eq_or_imp, here, Except.ok.injEq]
      constructor
      · rintro (rfl | more)
        · exact .inl rfl
        · exact .inr more
      · rintro (rfl | more)
        · exact .inl rfl
        · exact .inr more

theorem Keyed.locator_ok (keyed : c.Keyed) : ∃ locator, c.locator = .ok locator ∧ ∀ hash column value id,
      id ∈ locator.candidates hash column value none ↔ c.StoresEntry (Locator.entryOf hash column value id) := by
  obtain ⟨runs, decoded, same⟩ := @decodeRuns_ok c.locatorRuns.values (by
    intro bytes inside
    obtain ⟨key, there⟩ := mem_values.mp inside
    obtain ⟨-, run, read, -⟩ := keyed.runs _ there
    exact ⟨run, read⟩)
  refine ⟨Locator.fromAllRuns runs, by simp [locator, decoded, Except.map], ?_⟩
  intro hash column value id
  rw [Locator.mem_candidates_fromAllRuns]
  constructor
  · rintro ⟨run, inside, there⟩
    obtain ⟨bytes, stored, read⟩ := (same run).mp inside
    obtain ⟨key, found⟩ := mem_values.mp stored
    exact ⟨_, found, run, read, there⟩
  · rintro ⟨x, found, run, read, there⟩
    exact ⟨run, (same run).mpr ⟨x.2, mem_values.mpr ⟨x.1, found⟩, read⟩, there⟩

section
variable {c c' : Catalog} {retire : List Id} {publish : List Manifest} {locator : Locator}
  {checkpoint : Option Nat}

theorem publish_generation (published : c.publishInOneTransaction retire publish locator checkpoint = some c') :
    c'.generation = c.generation + 1 := by
  simp only [publishInOneTransaction, Option.ite_none_right_eq_some] at published
  obtain ⟨-, same⟩ := published
  cases same
  rfl

theorem publish_receipts (published : c.publishInOneTransaction retire publish locator checkpoint = some c') :
    c'.receipts = c.receipts ∧ c'.watermark = c.watermark ∧ c'.logCheckpoint =
      checkpoint.elim c.logCheckpoint fun p => some (max p (c.logCheckpoint.getD 0)) := by
  simp only [publishInOneTransaction, Option.ite_none_right_eq_some] at published
  obtain ⟨-, same⟩ := published
  cases same
  cases checkpoint <;> exact ⟨rfl, rfl, rfl⟩

theorem publish_tombstones (published : c.publishInOneTransaction retire publish locator checkpoint = some c') :
    c'.tombstones = c.tombstones ∧ c'.tombstoneGeneration = c.tombstoneGeneration := by
  simp only [publishInOneTransaction, Option.ite_none_right_eq_some] at published
  obtain ⟨-, same⟩ := published
  cases same
  exact ⟨rfl, rfl⟩

theorem publish_records (published : c.publishInOneTransaction retire publish locator checkpoint = some c')
    {x : (ℕ ×ₗ Id) × Manifest} (inside : x ∈ c'.segments.entries) : x ∈ c.segments.entries ∨
    (∃ id ∈ retire, x = (toLex (c.generation + 1, id), .retired id (c.generation + 1))) ∨
    ∃ m ∈ publish, x = (toLex (c.generation + 1, m.segmentId), { m with generation := c.generation + 1 }) := by
  simp only [publishInOneTransaction, Option.ite_none_right_eq_some] at published
  obtain ⟨-, same⟩ := published
  cases same
  rcases mem_foldl_insert inside with old | new
  · rcases mem_foldl_insert old with older | retired
    · exact .inl older
    · exact .inr (.inl retired)
  · exact .inr (.inr new)

theorem Recorded.publish_old (recorded : c.Recorded)
    (published : c.publishInOneTransaction retire publish locator checkpoint = some c')
    {x : (ℕ ×ₗ Id) × Manifest} (inside : x ∈ c.segments.entries) : x ∈ c'.segments.entries := by
  simp only [publishInOneTransaction, Option.ite_none_right_eq_some] at published
  obtain ⟨-, same⟩ := published
  cases same
  obtain ⟨key, bound⟩ := recorded x inside
  have other : ∀ id, toLex (c.generation + 1, id) ≠ x.1 := by
    intro id equal
    rw [key] at equal
    have := congrArg (fun k => (ofLex k).1) equal
    simp only [ofLex_toLex] at this
    omega
  exact mem_foldl_insert_old (mem_foldl_insert_old inside fun id _ => other id)
    fun m _ => other m.segmentId

theorem publish_retired (published : c.publishInOneTransaction retire publish locator checkpoint = some c')
    {id : Id} (inside : id ∈ retire) (kept : ∀ m ∈ publish, m.segmentId ≠ id) :
    Manifest.retired id (c.generation + 1) ∈ c'.segments.values := by
  simp only [publishInOneTransaction, Option.ite_none_right_eq_some] at published
  obtain ⟨-, same⟩ := published
  cases same
  refine mem_values.mpr ⟨toLex (c.generation + 1, id),
    mem_foldl_insert_old (mem_foldl_insert_new inside ?_) ?_⟩
  · intro other _ equal
    simp only [toLex_inj, Prod.mk.injEq, true_and] at equal
    rw [equal]
  · intro m there equal
    simp only [toLex_inj, Prod.mk.injEq, true_and] at equal
    exact kept m there equal

variable {m : Manifest}

theorem publish_new (published : c.publishInOneTransaction retire publish locator checkpoint = some c')
    (distinct : (publish.map Manifest.segmentId).Nodup) (inside : m ∈ publish) :
    { m with generation := c.generation + 1 } ∈ c'.segments.values := by
  simp only [publishInOneTransaction, Option.ite_none_right_eq_some] at published
  obtain ⟨-, same⟩ := published
  cases same
  refine mem_values.mpr ⟨toLex (c.generation + 1, m.segmentId),
    mem_foldl_insert_new inside ?_⟩
  intro other there equal
  simp only [toLex_inj, Prod.mk.injEq, true_and] at equal
  rw [inj_on_of_nodup_map distinct there inside equal]

theorem entries_lt_of_encode_le {run : LocatorRun} (small : run.encode.length ≤ maxValueBytes) :
    run.entries.length < 2 ^ 32 := by
  rw [LocatorRun.length_encode, maxValueBytes] at small
  omega

theorem publish_decode (sound : ∀ x ∈ locator.runs.entries, x.2.bucket = x.1 ∧ InI64 x.1)
    (published : c.publishInOneTransaction retire publish locator checkpoint = some c')
    {run : LocatorRun} (inside : run ∈ locator.runs.values) (some : run.entries ≠ []) :
    LocatorRun.decode run.encode = .ok run := by
  simp only [publishInOneTransaction, Option.ite_none_right_eq_some] at published
  obtain ⟨⟨-, small⟩, -⟩ := published
  obtain ⟨bucket, there⟩ := mem_values.mp inside
  obtain ⟨own, fits⟩ := sound _ there
  exact LocatorRun.decode_encode (own ▸ fits) (entries_lt_of_encode_le
    (small run (List.mem_filter.mpr ⟨inside, by simpa using some⟩)))

theorem publish_runs (published : c.publishInOneTransaction retire publish locator checkpoint = some c')
    {x : (ℤ ×ₗ ℕ) × Bytes} (inside : x ∈ c'.locatorRuns.entries) :
    x ∈ c.locatorRuns.entries ∨ ∃ run ∈ locator.runs.values, run.entries ≠ [] ∧
      x = (toLex (run.bucket, c.generation + 1), run.encode) := by
  simp only [publishInOneTransaction, Option.ite_none_right_eq_some] at published
  obtain ⟨-, same⟩ := published
  cases same
  rcases mem_foldl_insert inside with old | ⟨run, there, rfl⟩
  · exact .inl old
  · obtain ⟨mem, some⟩ := List.mem_filter.mp there
    exact .inr ⟨run, mem, by simpa using some, rfl⟩

theorem Keyed.publish_stores (keyed : c.Keyed) (sound : ∀ x ∈ locator.runs.entries, x.2.bucket = x.1 ∧ InI64 x.1)
    (published : c.publishInOneTransaction retire publish locator checkpoint = some c') {e : Entry} :
    c'.StoresEntry e ↔ c.StoresEntry e ∨ locator.Holds e := by
  constructor
  · rintro ⟨x, inside, run, read, there⟩
    rcases publish_runs published inside with old | ⟨stored, mem, some, rfl⟩
    · exact .inl ⟨x, old, run, read, there⟩
    · rw [publish_decode sound published mem some] at read
      cases read
      obtain ⟨bucket, found⟩ := mem_values.mp mem
      exact .inr ⟨_, found, there⟩
  · have guard := published
    simp only [publishInOneTransaction, Option.ite_none_right_eq_some] at guard
    obtain ⟨-, same⟩ := guard
    have stored : c'.locatorRuns = (locator.runs.values.filter fun run => run.entries ≠ []).foldl
        (fun stored run => stored.insert (toLex (run.bucket, c.generation + 1)) run.encode)
        c.locatorRuns := by
      cases same
      rfl
    rintro (⟨x, inside, run, read, there⟩ | ⟨x, inside, there⟩)
    · refine ⟨x, ?_, run, read, there⟩
      rw [stored]
      refine mem_foldl_insert_old inside fun r _ equal => ?_
      have bound := (keyed.runs x inside).1
      rw [← equal, ofLex_toLex] at bound
      simp only at bound
      omega
    · have some : x.2.entries ≠ [] := ne_nil_of_mem there
      have mem : x.2 ∈ locator.runs.values := mem_values.mpr ⟨x.1, inside⟩
      refine ⟨(toLex (x.2.bucket, c.generation + 1), x.2.encode), ?_, x.2,
        publish_decode sound published mem some, there⟩
      rw [stored]
      refine mem_foldl_insert_new (List.mem_filter.mpr ⟨mem, by simpa using some⟩) ?_
      intro r more equal
      simp only [toLex_inj, Prod.mk.injEq, and_true] at equal
      obtain ⟨bucket, found⟩ := mem_values.mp (List.mem_filter.mp more).1
      have first := (sound _ found).1
      have second := (sound _ inside).1
      simp only at first
      rw [← first, equal, second] at found
      rw [eq_of_mem found inside]

theorem Recorded.published (recorded : c.Recorded)
    (published : c.publishInOneTransaction retire publish locator checkpoint = some c') : c'.Recorded := by
  have generation := publish_generation published
  intro x inside
  rcases publish_records published inside with old | ⟨id, -, rfl⟩ | ⟨m, -, rfl⟩
  · obtain ⟨key, bound⟩ := recorded x old
    exact ⟨key, by omega⟩
  · exact ⟨rfl, by simp [Manifest.retired, generation]⟩
  · exact ⟨rfl, by simp [generation]⟩

theorem Keyed.published (keyed : c.Keyed) (sound : ∀ x ∈ locator.runs.entries, x.2.bucket = x.1 ∧ InI64 x.1)
    (published : c.publishInOneTransaction retire publish locator checkpoint = some c') : c'.Keyed := by
  have generation := publish_generation published
  refine ⟨keyed.segments.published published, fun x inside => ?_⟩
  rcases publish_runs published inside with old | ⟨run, mem, some, rfl⟩
  · obtain ⟨bound, read⟩ := keyed.runs x old
    exact ⟨by omega, read⟩
  · obtain ⟨bucket, found⟩ := mem_values.mp mem
    obtain ⟨own, fits⟩ := sound _ found
    exact ⟨by simp [generation], run, publish_decode sound published mem some, rfl, own ▸ fits⟩

variable (recorded : c.Recorded)
include recorded

theorem Recorded.live_new
    (published : c.publishInOneTransaction retire publish locator checkpoint = some c')
    (distinct : (publish.map Manifest.segmentId).Nodup) (inside : m ∈ publish)
    (tier : m.tier ≠ "") : { m with generation := c.generation + 1 } ∈ c'.manifests := by
  refine (recorded.published published).mem_manifests_iff.mpr
    ⟨publish_new published distinct inside, tier, fun r there _ => ?_⟩
  have bound := (recorded.published published).generation_le there
  rwa [publish_generation published] at bound

theorem Recorded.live_stays
    (published : c.publishInOneTransaction retire publish locator checkpoint = some c')
    (live : m ∈ c.manifests) (kept : m.segmentId ∉ retire)
    (other : ∀ n ∈ publish, n.segmentId ≠ m.segmentId) : m ∈ c'.manifests := by
  obtain ⟨there, tier, highest⟩ := mem_manifests live
  obtain ⟨key, stored⟩ := mem_values.mp there
  refine (recorded.published published).mem_manifests_iff.mpr
    ⟨mem_values.mpr ⟨key, recorded.publish_old published stored⟩, tier, ?_⟩
  intro r inside same
  obtain ⟨key, found⟩ := mem_values.mp inside
  rcases publish_records published found with old | ⟨id, mem, equal⟩ | ⟨n, mem, equal⟩
  · exact highest r (mem_values.mpr ⟨key, old⟩) same
  · obtain rfl := congrArg Prod.snd equal
    exact absurd (same ▸ mem) kept
  · obtain rfl := congrArg Prod.snd equal
    exact absurd same (other n mem)

theorem Recorded.id_stays
    (published : c.publishInOneTransaction retire publish locator checkpoint = some c') {id : Id}
    (live : id ∈ c.manifests.map Manifest.segmentId) (kept : id ∉ retire) (tiers : ∀ n ∈ publish, n.tier ≠ "") :
    id ∈ c'.manifests.map Manifest.segmentId := by
  obtain ⟨m, old, rfl⟩ := mem_map.mp live
  obtain ⟨there, alive, highest⟩ := mem_manifests old
  obtain ⟨key, stored⟩ := mem_values.mp there
  have remains : m ∈ c'.segments.values :=
    mem_values.mpr ⟨key, recorded.publish_old published stored⟩
  obtain ⟨best, covers⟩ := newest_newest c'.segments.values
  obtain ⟨n, found⟩ := covers m remains
  obtain ⟨record, same, top⟩ := best _ _ found
  have tier : n.tier ≠ "" := by
    obtain ⟨k, entry⟩ := mem_values.mp record
    rcases publish_records published entry with older | ⟨id, mem, equal⟩ | ⟨w, mem, equal⟩
    · have former : n ∈ c.segments.values := mem_values.mpr ⟨k, older⟩
      obtain rfl := recorded.eq_of_same former there
        (le_antisymm (highest n former same) (top m remains rfl)) same
      exact alive
    · obtain rfl := congrArg Prod.snd equal
      exact absurd (same ▸ mem) kept
    · obtain rfl := congrArg Prod.snd equal
      exact tiers w mem
  exact mem_map.mpr
    ⟨n, List.mem_filter.mpr ⟨mem_values.mpr ⟨_, found⟩, by simpa using tier⟩, same⟩

theorem Recorded.live_cases
    (published : c.publishInOneTransaction retire publish locator checkpoint = some c') (live : m ∈ c'.manifests) :
    m ∈ c.manifests ∨ ∃ n ∈ publish, { n with generation := c.generation + 1 } = m := by
  obtain ⟨there, alive, highest⟩ := mem_manifests live
  obtain ⟨key, found⟩ := mem_values.mp there
  rcases publish_records published found with old | ⟨id, mem, equal⟩ | ⟨n, mem, equal⟩
  · refine .inl (recorded.mem_manifests_iff.mpr
      ⟨mem_values.mpr ⟨key, old⟩, alive, fun r inside same => ?_⟩)
    obtain ⟨key, found⟩ := mem_values.mp inside
    exact highest r (mem_values.mpr ⟨key, recorded.publish_old published found⟩) same
  · obtain rfl := congrArg Prod.snd equal
    exact absurd rfl alive
  · exact .inr ⟨n, mem, (congrArg Prod.snd equal).symm⟩

theorem Recorded.live_unretired
    (published : c.publishInOneTransaction retire publish locator checkpoint = some c')
    (old : m ∈ c.manifests) (live : m ∈ c'.manifests)
    (other : ∀ n ∈ publish, n.segmentId ≠ m.segmentId) : m.segmentId ∉ retire := by
  intro retired
  have bound := recorded.generation_le (mem_manifests old).1
  have newer := (mem_manifests live).2.2 _ (publish_retired published retired other) rfl
  simp only [Manifest.retired] at newer
  omega

theorem Recorded.manifests_published
    (published : c.publishInOneTransaction retire publish locator checkpoint = some c')
    (distinct : (publish.map Manifest.segmentId).Nodup) (tier : ∀ m ∈ publish, m.tier ≠ "")
    (other : ∀ m ∈ c.manifests, ∀ n ∈ publish, n.segmentId ≠ m.segmentId) :
    c'.manifests.Perm (c.manifests.filter (fun m : Manifest => m.segmentId ∉ retire) ++
      publish.map fun m : Manifest => { m with generation := c.generation + 1 }) := by
  have fresh : ((c.manifests.filter (fun m : Manifest => m.segmentId ∉ retire) ++
      publish.map fun m : Manifest =>
        { m with generation := c.generation + 1 }).map Manifest.segmentId).Nodup := by
    rw [map_append, map_map]
    refine List.nodup_append.mpr ⟨(nodup_manifests c).sublist (filter_sublist.map _), distinct, ?_⟩
    intro id old _ new same
    obtain ⟨m, live, rfl⟩ := mem_map.mp old
    obtain ⟨n, mem, rfl⟩ := mem_map.mp new
    exact other m (List.mem_filter.mp live).1 n mem same.symm
  refine (perm_ext_iff_of_nodup (nodup_manifests c').of_map fresh.of_map).mpr fun m => ?_
  rw [mem_append, List.mem_filter, mem_map]
  constructor
  · intro live
    rcases recorded.live_cases published live with old | new
    · exact .inl ⟨old, by simpa using recorded.live_unretired published old live (other m old)⟩
    · exact .inr new
  · rintro (⟨live, kept⟩ | ⟨n, mem, rfl⟩)
    · exact recorded.live_stays published live (by simpa using kept) (other m live)
    · exact recorded.live_new published distinct mem (tier n mem)

omit recorded

end

theorem consolidate_runs {c c' : Catalog} {bucket : Int} {retired : List Id}
    (done : c.consolidateLocator bucket retired = some c') : ∃ runs, c' = { c with locatorRuns := runs } := by
  unfold consolidateLocator at done
  split at done
  · cases done
    exact ⟨_, rfl⟩
  · split at done
    · cases done
    · dsimp only at done
      split at done
      · cases done
        exact ⟨_, rfl⟩
      · split at done
        · cases done
          exact ⟨_, rfl⟩
        · cases done

/-- A consolidation keeps every entry whose segment it was not told to drop, and adds none. -/
theorem Keyed.consolidated {c c' : Catalog} {bucket : Int} {retired : List Id} (keyed : c.Keyed)
    (done : c.consolidateLocator bucket retired = some c') :
    c'.Keyed ∧ (∃ runs, c' = { c with locatorRuns := runs }) ∧
      (∀ e, c.StoresEntry e → e.segment ∉ retired → c'.StoresEntry e) ∧
      ∀ e, c'.StoresEntry e → c.StoresEntry e := by
  unfold consolidateLocator at done
  split at done
  · cases done
    exact ⟨keyed, ⟨_, rfl⟩, fun e stored _ => stored, fun e stored => stored⟩
  · rename_i keep last
    obtain ⟨keepStored, keepBucket⟩ := OrderedMap.mem_filter.mp (mem_of_getLast? last)
    have keepBucket : (ofLex keep.1).1 = bucket := by simpa using keepBucket
    have readable : ∀ bytes ∈ (c.bucketRuns bucket).values,
        ∃ run, LocatorRun.decode bytes = .ok run ∧ run.bucket = bucket := by
      intro bytes inside
      obtain ⟨key, there⟩ := mem_values.mp inside
      obtain ⟨stored, same⟩ := OrderedMap.mem_filter.mp there
      obtain ⟨-, run, read, own, -⟩ := keyed.runs _ stored
      exact ⟨run, read, own.trans (by simpa using same)⟩
    obtain ⟨runs, decoded, same⟩ := decodeRuns_ok fun bytes inside =>
      (readable bytes inside).imp fun run both => both.1
    simp only [decoded] at done
    -- Every run of the combination is under the one bucket that was read.
    have buckets : ∀ x ∈ ((Locator.fromAllRuns runs).retainSegments
        fun id => id ∉ retired).runs.entries, x.2.bucket = x.1 ∧ x.1 = bucket := by
      intro x inside
      obtain ⟨y, old, rfl⟩ := mem_map.mp (OrderedMap.mem_filter.mp inside).1
      obtain ⟨own, run, mem, source⟩ := Locator.bucket_fromAllRuns old
      obtain ⟨bytes, stored, read⟩ := (same run).mp mem
      obtain ⟨other, again, bucketed⟩ := readable bytes stored
      rw [read] at again
      cases again
      exact ⟨own, source.symm.trans bucketed⟩
    have others : ∀ x ∈ c.locatorRuns.entries, (ofLex x.1).1 ≠ bucket →
        x ∈ (c.otherRuns bucket).entries := fun x inside apart =>
      OrderedMap.mem_filter.mpr ⟨inside, by simpa using apart⟩
    have keptOthers : ∀ x ∈ (c.otherRuns bucket).entries,
        x ∈ c.locatorRuns.entries ∧ (ofLex x.1).1 ≠ bucket := by
      intro x inside
      obtain ⟨stored, apart⟩ := OrderedMap.mem_filter.mp inside
      exact ⟨stored, by simpa using apart⟩
    -- An entry of the bucket whose segment stays is in the combination.
    have combined : ∀ e x run, x ∈ c.locatorRuns.entries → (ofLex x.1).1 = bucket →
        LocatorRun.decode x.2 = .ok run → e ∈ run.entries → e.segment ∉ retired →
        ((Locator.fromAllRuns runs).retainSegments fun id => id ∉ retired).Holds e := by
      intro e x run inside here read there stays
      refine Locator.holds_retainSegments.mpr ⟨Locator.holds_fromAllRuns.mpr ⟨run, ?_, there⟩,
        by simpa using stays⟩
      refine (same run).mpr ⟨x.2, mem_values.mpr ⟨x.1, ?_⟩, read⟩
      exact OrderedMap.mem_filter.mpr ⟨inside, by simpa using here⟩
    -- An entry of the combination was stored.
    have before : ∀ e, ((Locator.fromAllRuns runs).retainSegments fun id => id ∉ retired).Holds e →
        c.StoresEntry e := by
      intro e held
      obtain ⟨run, mem, there⟩ := Locator.holds_fromAllRuns.mp (Locator.holds_retainSegments.mp held).1
      obtain ⟨bytes, stored, read⟩ := (same run).mp mem
      obtain ⟨key, inside⟩ := mem_values.mp stored
      exact ⟨_, (OrderedMap.mem_filter.mp inside).1, run, read, there⟩
    split at done
    · rename_i nothing
      cases done
      refine ⟨⟨keyed.segments, fun x inside => keyed.runs x (keptOthers x inside).1⟩, ⟨_, rfl⟩, ?_,
        fun e ⟨x, inside, held⟩ => ⟨x, (keptOthers x inside).1, held⟩⟩
      rintro e ⟨x, inside, run, read, there⟩ stays
      by_cases here : (ofLex x.1).1 = bucket
      · obtain ⟨y, mem, has⟩ := combined e x run inside here read there stays
        have empty := find?_eq_none.mp nothing y.2 (mem_values.mpr ⟨y.1, mem⟩)
        simp [ne_nil_of_mem has] at empty
      · exact ⟨x, others x inside here, run, read, there⟩
    · rename_i run found
      split at done
      · rename_i small
        cases done
        obtain ⟨key, mem⟩ := mem_values.mp (mem_of_find?_eq_some found)
        obtain ⟨own, only⟩ := buckets _ mem
        simp only at own only
        obtain ⟨bound, old, oldRead, oldBucket, oldFits⟩ := keyed.runs _ keepStored
        have fits : InI64 run.bucket := by
          rw [own, only, ← keepBucket, ← oldBucket]
          exact oldFits
        have read := LocatorRun.decode_encode fits (entries_lt_of_encode_le small)
        refine ⟨⟨keyed.segments, fun x inside => ?_⟩, ⟨_, rfl⟩, ?_, ?_⟩
        · rcases mem_insert.mp inside with rfl | ⟨other, -⟩
          · exact ⟨bound, run, read, by rw [own, only, keepBucket], fits⟩
          · exact keyed.runs x (keptOthers x other).1
        · rintro e ⟨x, inside, held, heldRead, there⟩ stays
          by_cases here : (ofLex x.1).1 = bucket
          · obtain ⟨y, member, has⟩ := combined e x held inside here heldRead there stays
            have whole : (key, y.2) ∈ ((Locator.fromAllRuns runs).retainSegments
                fun id => id ∉ retired).runs.entries := by
              rw [only, ← (buckets y member).2]
              exact member
            obtain rfl := eq_of_mem whole mem
            exact ⟨_, mem_insert.mpr (.inl rfl), y.2, read, has⟩
          · refine ⟨x, mem_insert.mpr (.inr ⟨others x inside here, ?_⟩), held, heldRead,
              there⟩
            rintro equal
            exact here (equal ▸ keepBucket)
        · rintro e ⟨x, inside, held, heldRead, there⟩
          rcases mem_insert.mp inside with rfl | ⟨other, -⟩
          · rw [read] at heldRead
            cases heldRead
            exact before e ⟨_, mem, there⟩
          · exact ⟨x, (keptOthers x other).1, held, heldRead, there⟩
      · cases done

end Catalog
end TallyOwl
