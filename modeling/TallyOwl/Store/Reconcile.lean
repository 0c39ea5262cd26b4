import TallyOwl.Store.LookupEvent

/-! A segment that comes from another replica (`install_segment`, `reconcile_segment`). The file goes
in whole where no live segment covers its log range, and row by row, by one lookup each, where one
does: rows in memory are outside the first test, and rows a lookup does not show outside the second. -/
namespace TallyOwl.Reconcile
open Lib Format Locate Segmented LookupEvent List OrderedMap

/-- What a call draws, and how the device and the storage engine answer it. -/
structure Outside where
  newSegmentId : Id
  build : Option StoreError
  room : Option StoreError
  write : Option StoreError
  publish : Option StoreError

structure Installed where
  segmentId : Id
  rowCount : Nat
  byteCount : Nat
  alreadyHeld : Bool
  deriving DecidableEq

/-- Some live segment covers a part of the log range of the same tablet. -/
def overlaps (s : Store) (segment : Manifest) : Bool :=
  s.catalog.manifests.any fun held => held.tabletId = segment.tabletId ∧
    held.logRange.1 ≤ segment.logRange.2 ∧ segment.logRange.1 ≤ held.logRange.2

section
variable (node : Node) (mayHold : File → String → Bytes → Bool)

def installSegment (o : Outside) (s : Store) (segment : Written) : Store × Except StoreError Installed :=
  if s.catalog.manifests.any fun held => held.contentAddress = segment.1.contentAddress then
    (s, .ok ⟨segment.1.segmentId, segment.1.rowCount, segment.1.byteCount, true⟩)
  else
    match o.room, o.write with
    | some e, _ => (s, .error e)
    | none, some e => (s, .error e)
    | none, none =>
        let placed := received segment
        let written := { s with files := s.files.insert placed.1.segmentId ⟨placed.2, none⟩ }
        match o.publish, s.catalog.publishWithLocator [placed.1]
            (locatorFor node.hash node.floatText [placed]) with
        | some e, _ => (written, .error e)
        | none, none => (written, .error doesNotFit)
        | none, some catalog => ({ written with catalog },
            .ok ⟨placed.1.segmentId, placed.1.rowCount, placed.1.byteCount, false⟩)

def missing (s : Store) : List EventRow → Except StoreError (List EventRow)
  | [] => .ok []
  | row :: rest =>
      match s.lookupEvent node.hash node.floatText mayHold row.eventId with
      | .error e => .error e
      | .ok found =>
          match missing s rest with
          | .error e => .error e
          | .ok keep => .ok (if found = none then row :: keep else keep)

/-- A new segment for some of the rows. It keeps the log range of the one that they are from. -/
def partOf (segment : Written) (segmentId : Id) (keep : List EventRow) : Written :=
  (describe node { Manifest.retired segmentId 0 with
    workspaceId := segment.1.workspaceId
    projectId := segment.1.projectId
    logRange := segment.1.logRange
    tabletId := segment.1.tabletId
    tier := "local" } keep, keep)

def reconcileSegment (o : Outside) (s : Store) (segment : Written) : Store × Except StoreError Installed :=
  if overlaps s segment.1 then
    match missing node mayHold s segment.2 with
    | .error e => (s, .error e)
    | .ok [] => (s, .ok ⟨segment.1.segmentId, segment.1.rowCount, segment.1.byteCount, true⟩)
    | .ok keep =>
        match o.build with
        | some e => (s, .error e)
        | none =>
            let (s, result) := installSegment node o s (partOf node segment o.newSegmentId keep)
            (s, result.map fun _ => ⟨o.newSegmentId, keep.length, segment.1.byteCount, false⟩)
  else installSegment node o s segment

end

/-! What a call makes of the store. -/

/-- The rows of the store, each once: a published batch is in segments. -/
def stored (s : Store) : List EventRow :=
  unpublished s.catalog.manifests s.memory ++ s.catalog.manifests.flatMap s.rowsOf

def copies (rows : List EventRow) (eventId : Id) : Nat := rows.countP fun row => row.eventId = eventId

structure Unused (s : Store) (id : Id) : Prop where
  live : id ∉ s.catalog.manifests.map Manifest.segmentId
  sealing : ∀ batch ∈ s.memory.sealing, id ∉ batch.1
  file : s.files.get? id = none

/-- The store with one more live segment, in a file that reads. -/
structure Adds (node : Node) (s s' : Store) (w : Written) : Prop where
  memory : s'.memory = s.memory
  files : s'.files = s.files.insert w.1.segmentId ⟨w.2, none⟩
  catalog : s.catalog.publishWithLocator [w.1] (locatorFor node.hash node.floatText [w]) = some s'.catalog

/-- A segment that a store may take: its id is free, it is live, and its moments are not at the
very end of time. -/
structure Admissible (s : Store) (w : Written) : Prop where
  live : w.1.segmentId ∉ s.catalog.manifests.map Manifest.segmentId
  sealing : ∀ batch ∈ s.memory.sealing, w.1.segmentId ∉ batch.1
  tier : w.1.tier ≠ ""
  moments : ∀ row ∈ w.2, -2 ^ 63 + bucketMs ≤ row.occurredAt ∧ row.occurredAt < 2 ^ 63

/-- A segment's rows have the fingerprints under which a lookup asks for the event. -/
def indexes (node : Node) (w : Written) (eventId : Id) : Bool :=
  w.2.any fun row => (indexedValues node.floatText row).any fun x =>
    Locator.entryOf node.hash x.1 x.2 w.1.segmentId =
      Locator.entryOf node.hash "event_id" eventId.bytes w.1.segmentId

/-- What a lookup reads once the store has one more segment. The locator names it for what its rows
are indexed under, and where it names some segment the lookup reads no other. -/
def sightWith (node : Node) (mayHold : File → String → Bytes → Bool) (s : Store) (w : Written)
    (eventId : Id) : Sight where
  memory := s.inMemory eventId
  segments :=
    match s.cachedLocator with
    | .error e => .error e
    | .ok locator =>
        let candidates := locator.candidates node.hash "event_id" eventId.bytes none
        let named := if indexes node w eventId then w.1.segmentId :: candidates else candidates
        .ok (s.reads mayHold eventId named ++
          if named = [] ∨ w.1.segmentId ∈ named then placesOf mayHold eventId [(w.1.segmentId, ⟨w.2, none⟩)]
          else [])

section
variable {node : Node} {mayHold : File → String → Bytes → Bool} {s s' : Store} {w : Written} {eventId : Id}

variable (adds : Adds node s s' w)
include adds

theorem Adds.tombstones : s'.tombstones = s.tombstones := by
  rw [Store.tombstones, Store.tombstones, (Catalog.publish_tombstones adds.catalog).1]

theorem Adds.manifests (keyed : s.catalog.Keyed) (fits : Admissible s w) :
    s'.catalog.manifests.Perm (s.catalog.manifests ++ [{ w.1 with generation := s.catalog.generation + 1 }]) := by
  have listed := keyed.segments.manifests_published adds.catalog (by simp) (by simpa using fits.tier)
    fun m live n mem same => by
      obtain rfl := mem_singleton.mp mem
      exact fits.live (same ▸ mem_map_of_mem live)
  simpa using listed

theorem Adds.openSegment (id : Id) :
    s'.openSegment id = if id = w.1.segmentId then .ok ⟨w.2, none⟩ else s.openSegment id := by
  unfold Store.openSegment
  rw [adds.files, get?_insert]
  by_cases same : id = w.1.segmentId
  · simp only [if_pos same]
  · simp only [if_neg same]

theorem Adds.rowsOf_old {m : Manifest} (other : m.segmentId ≠ w.1.segmentId) :
    s'.rowsOf m = s.rowsOf m := by
  rw [Store.rowsOf, Store.rowsOf, adds.files, get?_insert, if_neg other]

theorem Adds.rowsOf_new {m : Manifest} (same : m.segmentId = w.1.segmentId) :
    s'.rowsOf m = w.2 := by
  rw [Store.rowsOf, adds.files, get?_insert, if_pos same]
  rfl

theorem Adds.unpublished (keyed : s.catalog.Keyed) (fits : Admissible s w) :
    unpublished s'.catalog.manifests s'.memory = unpublished s.catalog.manifests s.memory := by
  rw [adds.memory]
  refine unpublished_congr fun batch inside => ?_
  rw [Bool.eq_iff_iff]
  simp only [hasAny, any_eq_true, decide_eq_true_eq]
  refine exists_congr fun id => and_congr_right fun mine => ?_
  rw [((adds.manifests keyed fits).map Manifest.segmentId).mem_iff]
  have other : id ≠ w.1.segmentId := fun same => fits.sealing batch inside (same ▸ mine)
  simp [other]

theorem Adds.stored (keyed : s.catalog.Keyed) (fits : Admissible s w) :
    (stored s').Perm (stored s ++ w.2) := by
  have listed := adds.manifests keyed fits
  have new : s'.rowsOf { w.1 with generation := s.catalog.generation + 1 } = w.2 := adds.rowsOf_new rfl
  have segments : (s'.catalog.manifests.flatMap s'.rowsOf).Perm
      (s.catalog.manifests.flatMap s.rowsOf ++ w.2) := by
    refine (listed.flatMap_right _).trans (List.Perm.of_eq ?_)
    rw [flatMap_append, flatMap_singleton, new]
    refine congrArg (· ++ w.2) (flatMap_congr fun m live => adds.rowsOf_old fun same => ?_)
    exact fits.live (same ▸ mem_map_of_mem live)
  rw [Reconcile.stored, Reconcile.stored, adds.unpublished keyed fits, append_assoc]
  exact segments.append_left _

theorem Adds.copies (keyed : s.catalog.Keyed) (fits : Admissible s w) :
    copies (Reconcile.stored s') eventId = copies (Reconcile.stored s) eventId + copies w.2 eventId := by
  rw [Reconcile.copies, (adds.stored keyed fits).countP_eq, countP_append]
  rfl

omit adds

theorem cachedLocator_ok (keyed : s.catalog.Keyed) : ∃ locator, s.cachedLocator = .ok locator ∧
    ∀ hash column value id, id ∈ locator.candidates hash column value none ↔
      s.catalog.StoresEntry (Locator.entryOf hash column value id) := by
  obtain ⟨locator, read, named⟩ := keyed.locator_ok
  exact ⟨locator, by simp [Store.cachedLocator, read], named⟩

theorem sound_added (fits : Admissible s w) :
    ∀ x ∈ (locatorFor node.hash node.floatText [w]).runs.entries, x.2.bucket = x.1 ∧ InI64 x.1 :=
  sound_locatorFor fun v inside row there => by
    obtain rfl := mem_singleton.mp inside
    exact inI64_bucketOf (fits.moments row there).1 (fits.moments row there).2

variable (adds : Adds node s s' w)
include adds

theorem Adds.keyed (keyed : s.catalog.Keyed) (fits : Admissible s w) :
    s'.catalog.Keyed := keyed.published (sound_added fits) adds.catalog

theorem Adds.storesEntry (keyed : s.catalog.Keyed) (fits : Admissible s w) {id : Id} :
    s'.catalog.StoresEntry (Locator.entryOf node.hash "event_id" eventId.bytes id) ↔
      s.catalog.StoresEntry (Locator.entryOf node.hash "event_id" eventId.bytes id) ∨
        id = w.1.segmentId ∧ indexes node w eventId = true := by
  rw [keyed.publish_stores (sound_added fits) adds.catalog, holds_locatorFor]
  refine or_congr_right ?_
  simp only [mem_singleton, exists_eq_left, indexes, any_eq_true, decide_eq_true_eq]
  constructor
  · rintro ⟨row, inside, x, values, same⟩
    obtain rfl : id = w.1.segmentId := congrArg Entry.segment same
    exact ⟨rfl, row, inside, x, values, same.symm⟩
  · rintro ⟨rfl, row, inside, x, values, same⟩
    exact ⟨row, inside, x, values, same.symm⟩

theorem Adds.mem_segmentsWhere (keyed : s.catalog.Keyed) (fits : Admissible s w)
    (ids : Id → Bool) {x : Id × File} : x ∈ (s'.segmentsWhere fun m => ids m.segmentId).1 ↔
      x ∈ (s.segmentsWhere fun m => ids m.segmentId).1 ∨
        ids w.1.segmentId = true ∧ x = (w.1.segmentId, ⟨w.2, none⟩) := by
  rw [LookupEvent.mem_segmentsWhere, LookupEvent.mem_segmentsWhere, adds.openSegment]
  simp only [(adds.manifests keyed fits).mem_iff, mem_append, mem_singleton]
  constructor
  · rintro ⟨m, live | rfl, kept, same, opens⟩
    · have other : x.1 ≠ w.1.segmentId := fun equal =>
        fits.live (equal ▸ same ▸ mem_map_of_mem live)
      rw [if_neg other] at opens
      exact .inl ⟨m, live, kept, same, opens⟩
    · rw [if_pos same.symm] at opens
      exact .inr ⟨kept, Prod.ext same.symm (Option.some.inj opens).symm⟩
  · rintro (⟨m, live, kept, same, opens⟩ | ⟨kept, rfl⟩)
    · have other : x.1 ≠ w.1.segmentId := fun equal =>
        fits.live (equal ▸ same ▸ mem_map_of_mem live)
      exact ⟨m, .inl live, kept, same, by rwa [if_neg other]⟩
    · exact ⟨_, .inr rfl, kept, rfl, by simp [opened]⟩

theorem Adds.inMemory (keyed : s.catalog.Keyed) (fits : Admissible s w) :
    s'.inMemory eventId = s.inMemory eventId := by
  rw [Store.inMemory, Store.inMemory, unpublished_kept, unpublished_kept, adds.unpublished keyed fits]

theorem Adds.sight (keyed : s.catalog.Keyed) (fits : Admissible s w) {p : Place} :
    (s'.sight node.hash mayHold eventId).EndsAt eventId p ↔ (sightWith node mayHold s w eventId).EndsAt eventId p := by
  obtain ⟨locator, read, names⟩ := cachedLocator_ok keyed
  obtain ⟨locator', read', names'⟩ := cachedLocator_ok (adds.keyed keyed fits)
  set candidates := locator.candidates node.hash "event_id" eventId.bytes none with found
  set candidates' := locator'.candidates node.hash "event_id" eventId.bytes none with found'
  set named := if indexes node w eventId then w.1.segmentId :: candidates else candidates with added
  have same : ∀ id, id ∈ candidates' ↔ id ∈ named := by
    intro id
    rw [found', names', adds.storesEntry keyed fits, ← names, ← found, added]
    split
    · rename_i indexed
      simp [indexed, or_comm]
    · rename_i unindexed
      simp [unindexed]
  have empty : candidates' = [] ↔ named = [] := by
    simp only [eq_nil_iff_forall_not_mem, same]
  have wanted : (fun id : Id => decide (candidates' = [] ∨ id ∈ candidates')) =
      fun id => decide (named = [] ∨ id ∈ named) := by
    funext id
    rw [decide_eq_decide, empty, same]
  have before : (s'.sight node.hash mayHold eventId).segments = .ok (s'.reads mayHold eventId candidates') := by
    simp [Store.sight, read', found']
  refine Sight.endsAt_congr (adds.inMemory keyed fits) before
    (by simp only [sightWith, read, ← found, ← added]; rfl) fun x => ?_
  have pruned : s'.reads mayHold eventId candidates' = placesOf mayHold eventId
      (s'.segmentsWhere fun m => decide (named = [] ∨ m.segmentId ∈ named)).1 := by
    have each := fun m : Manifest => congrFun wanted m.segmentId
    simp only [Store.reads, each]
  rw [pruned, Store.reads, mem_append, mem_placesOf, mem_placesOf]
  have members := fun y => adds.mem_segmentsWhere keyed fits (fun id => decide (named = [] ∨ id ∈ named)) (x := y)
  simp only [members, decide_eq_true_eq]
  have new : x ∈ (if named = [] ∨ w.1.segmentId ∈ named then
      placesOf mayHold eventId [(w.1.segmentId, ⟨w.2, none⟩)] else []) ↔
      (named = [] ∨ w.1.segmentId ∈ named) ∧ mayHold ⟨w.2, none⟩ "event_id" eventId.bytes = true ∧
        (w.1.segmentId, File.readRows ⟨w.2, none⟩) = x := by
    split
    · rename_i kept
      simp [mem_placesOf, kept]
    · rename_i pruned
      simp [pruned]
  rw [new]
  constructor
  · rintro ⟨y, old | ⟨kept, rfl⟩, holds, same⟩
    · exact .inl ⟨y, old, holds, same⟩
    · exact .inr ⟨kept, holds, same⟩
  · rintro (⟨y, old, holds, same⟩ | ⟨kept, holds, same⟩)
    · exact ⟨y, .inl old, holds, same⟩
    · exact ⟨_, .inr ⟨kept, rfl⟩, holds, same⟩

theorem Adds.fails (keyed : s.catalog.Keyed) (fits : Admissible s w) :
    (s'.sight node.hash mayHold eventId).Fails eventId ↔ (sightWith node mayHold s w eventId).Fails eventId :=
  exists_congr fun _ => adds.sight keyed fits

theorem Adds.finds (keyed : s.catalog.Keyed) (fits : Admissible s w) :
    (s'.sight node.hash mayHold eventId).Finds node.floatText s'.tombstones eventId ↔
      (sightWith node mayHold s w eventId).Finds node.floatText s.tombstones eventId := by
  rw [adds.tombstones]
  exact exists_congr fun _ => exists_congr fun _ => and_congr_left' (adds.sight keyed fits)

omit adds

end

/-! One call, and the same call again. -/

/-- The rows of a segment that a store does not show to a lookup. -/
def unseen (node : Node) (mayHold : File → String → Bytes → Bool) (s : Store) (rows : List EventRow) :
    List EventRow :=
  rows.filter fun row => s.lookupEvent node.hash node.floatText mayHold row.eventId = .ok none

/-- Content addresses name content, a segment that is listed twice is one segment, and the store's
own catalog is in order. -/
structure Genuine (node : Node) (owner : Bytes → Id) (s : Store) (segment : Written) : Prop where
  keyed : s.catalog.Keyed
  image : ∀ m rows, owner (node.image m rows).1 = m.segmentId
  listed : ∀ m ∈ s.catalog.manifests, owner m.contentAddress = m.segmentId
  address : owner segment.1.contentAddress = segment.1.segmentId
  same : ∀ m ∈ s.catalog.manifests, m.segmentId = segment.1.segmentId →
    m.contentAddress = segment.1.contentAddress ∧ s.rowsOf m = segment.2
  sealing : ∀ batch ∈ s.memory.sealing, segment.1.segmentId ∉ batch.1
  moments : ∀ row ∈ segment.2, -2 ^ 63 + bucketMs ≤ row.occurredAt ∧ row.occurredAt < 2 ^ 63

/-- Every event of the segment that was stored at most once is stored once. -/
def OnceEach (s s' : Store) (segment : Written) : Prop :=
  ∀ row ∈ segment.2, copies (stored s) row.eventId ≤ 1 → copies (stored s') row.eventId = 1

/-- With one more segment, a lookup finds each row of the received one, or some lookup fails. -/
def Rests (node : Node) (mayHold : File → String → Bytes → Bool) (s : Store) (w segment : Written) : Prop :=
  (∃ row ∈ segment.2, (sightWith node mayHold s w row.eventId).Fails row.eventId) ∨
    ∀ row ∈ segment.2, (sightWith node mayHold s w row.eventId).Finds node.floatText s.tombstones row.eventId

/-- A segment that goes in whole brings only what the store does not have. One that goes in row by
row brings an event the store does not have once, and the lookup sees each event that it has. -/
def BringsOnce (node : Node) (mayHold : File → String → Bytes → Bool) (s : Store) (segment : Written)
    (newSegmentId : Id) : Prop :=
  if overlaps s segment.1 then
    unseen node mayHold s segment.2 ≠ [] →
      (∀ row ∈ segment.2, (copies (stored s) row.eventId = 0 → copies segment.2 row.eventId = 1) ∧
        (copies (stored s) row.eventId = 1 →
          (s.sight node.hash mayHold row.eventId).Finds node.floatText s.tombstones row.eventId)) ∧
      Rests node mayHold s (partOf node segment newSegmentId (unseen node mayHold s segment.2)) segment
  else
    segment.1.segmentId ∉ s.catalog.manifests.map Manifest.segmentId →
      (∀ row ∈ segment.2, copies (stored s) row.eventId ≤ 1 →
        copies (stored s) row.eventId = 0 ∧ copies segment.2 row.eventId = 1) ∧
      (segment.1.logRange.1 ≤ segment.1.logRange.2 → Rests node mayHold s (received segment) segment)

section
variable {node : Node} {mayHold : File → String → Bytes → Bool} {owner : Bytes → Id} {s s' : Store}
  {segment : Written} {rows : List EventRow} {o : Outside} {done : Installed} {eventId : Id}

theorem missing_cases : ((∃ row ∈ rows, (s.sight node.hash mayHold row.eventId).Fails row.eventId) ∧
      ∃ e, missing node mayHold s rows = .error e) ∨
    (∀ row ∈ rows, ¬ (s.sight node.hash mayHold row.eventId).Fails row.eventId) ∧
      missing node mayHold s rows = .ok (unseen node mayHold s rows) := by
  induction rows with
  | nil => exact .inr ⟨by simp, rfl⟩
  | cons row rest ih =>
    rcases @lookupEvent_outcome node.hash node.floatText mayHold s row.eventId with
      ⟨fails, -, e, same⟩ | ⟨clear, -, found, same⟩ | ⟨clear, -, same⟩
    · exact .inl ⟨⟨row, mem_cons_self, fails⟩, e, by simp [missing, same]⟩
    · rcases ih with ⟨⟨r, inside, fails⟩, e, stops⟩ | ⟨others, keep⟩
      · exact .inl ⟨⟨r, mem_cons_of_mem _ inside, fails⟩, e, by simp [missing, same, stops]⟩
      · refine .inr ⟨forall_mem_cons.mpr ⟨clear, others⟩, ?_⟩
        simp [missing, same, keep, unseen]
    · rcases ih with ⟨⟨r, inside, fails⟩, e, stops⟩ | ⟨others, keep⟩
      · exact .inl ⟨⟨r, mem_cons_of_mem _ inside, fails⟩, e, by simp [missing, same, stops]⟩
      · refine .inr ⟨forall_mem_cons.mpr ⟨clear, others⟩, ?_⟩
        simp [missing, same, keep, unseen]

theorem copies_of_finds {tombstones : List Tombstone}
    (finds : (s.sight node.hash mayHold eventId).Finds node.floatText tombstones eventId) :
    0 < copies (stored s) eventId := by
  obtain ⟨rows, row, ends, found, -⟩ := finds
  have own : row.eventId = eventId := by simpa using find?_some found
  have inside := mem_of_find?_eq_some found
  refine countP_pos_iff.mpr ⟨row, ?_, by simpa using own⟩
  generalize place : (Except.ok rows : Place) = p at ends
  rw [stored, mem_append]
  cases ends with
  | memory =>
    cases place
    have there : row ∈ s.inMemory eventId := inside
    rw [Store.inMemory, unpublished_kept] at there
    exact .inl (List.mem_filter.mp there).1
  | locator => cases place
  | segment _ reads there =>
    rename_i segments x _ _ _
    unfold Store.sight at reads
    split at reads
    · cases reads
    · cases reads
      obtain ⟨y, opened, -, rfl⟩ := mem_placesOf.mp there
      obtain ⟨m, live, -, same, opens⟩ := LookupEvent.mem_segmentsWhere.mp opened
      have read := File.rows_of_readRows place.symm
      have file : s.rowsOf m = rows := by
        rw [Store.rowsOf, same, get?_of_opened opens, Option.map_some, Option.getD_some, read]
      exact .inr (mem_flatMap.mpr ⟨m, live, file ▸ inside⟩)

theorem installSegment_ok (ok : installSegment node o s segment = (s', .ok done)) :
    (s.catalog.manifests.any fun held => held.contentAddress = segment.1.contentAddress) = true ∧ s' = s ∨
    (s.catalog.manifests.any fun held => held.contentAddress = segment.1.contentAddress) = false ∧
      Adds node s s' (received segment) := by
  unfold installSegment at ok
  split at ok
  · rename_i held
    exact .inl ⟨held, (congrArg Prod.fst ok).symm⟩
  · rename_i new
    refine .inr ⟨by simpa using new, ?_⟩
    split at ok
    · cases congrArg Prod.snd ok
    · cases congrArg Prod.snd ok
    · simp only at ok
      split at ok
      · cases congrArg Prod.snd ok
      · cases congrArg Prod.snd ok
      · rename_i catalog _ published
        obtain rfl := congrArg Prod.fst ok
        exact ⟨rfl, rfl, published⟩

theorem installSegment_held
    (held : (s.catalog.manifests.any fun held => held.contentAddress = segment.1.contentAddress) = true) :
    (installSegment node o s segment).1 = s := by
  simp [installSegment, held]

theorem installSegment_writes
    (new : (s.catalog.manifests.any fun held => held.contentAddress = segment.1.contentAddress) = false)
    (room : o.room = none) (write : o.write = none) :
    (installSegment node o s segment).1.files = s.files.insert segment.1.segmentId ⟨segment.2, none⟩ := by
  unfold installSegment
  rw [if_neg (by simpa using new)]
  simp only [room, write]
  split <;> rfl

theorem unseen_eq_nil (clear : ∀ row ∈ rows, ¬ (s.sight node.hash mayHold row.eventId).Fails row.eventId) :
    unseen node mayHold s rows = [] ↔ ∀ row ∈ rows,
      (s.sight node.hash mayHold row.eventId).Finds node.floatText s.tombstones row.eventId := by
  rw [unseen, filter_eq_nil_iff]
  refine forall₂_congr fun row inside => ?_
  rw [decide_eq_true_eq, lookupEvent_eq_none, not_and_not_right]
  exact ⟨fun finds => finds (clear row inside), fun finds _ => finds⟩

theorem address_new {id : Id} {keep : List EventRow} (image : ∀ m rows, owner (node.image m rows).1 = m.segmentId)
    (listed : ∀ m ∈ s.catalog.manifests, owner m.contentAddress = m.segmentId)
    (unlisted : id ∉ s.catalog.manifests.map Manifest.segmentId) : (s.catalog.manifests.any fun held =>
      held.contentAddress = (partOf node segment id keep).1.contentAddress) = false := by
  rw [any_eq_false]
  intro m live equal
  have owned : owner (partOf node segment id keep).1.contentAddress = id := image _ _
  rw [← of_decide_eq_true equal, listed m live] at owned
  exact unlisted (owned ▸ mem_map_of_mem live)

/-- Where the segment's log range is covered, a call leaves the store alone exactly where every row
is found, or a lookup fails. -/
theorem leaves_alone_iff {spare : Id} (image : ∀ m rows, owner (node.image m rows).1 = m.segmentId)
    (listed : ∀ m ∈ s.catalog.manifests, owner m.contentAddress = m.segmentId) (unused : Unused s spare)
    (covered : overlaps s segment.1 = true) : (∀ again, (reconcileSegment node mayHold again s segment).1 = s) ↔
      (∃ row ∈ segment.2, (s.sight node.hash mayHold row.eventId).Fails row.eventId) ∨
      ∀ row ∈ segment.2, (s.sight node.hash mayHold row.eventId).Finds node.floatText s.tombstones row.eventId := by
  rcases @missing_cases node mayHold s segment.2 with ⟨fails, e, stops⟩ | ⟨clear, keep⟩
  · refine iff_of_true (fun again => ?_) (.inl fails)
    simp [reconcileSegment, covered, stops]
  · have found := unseen_eq_nil clear
    cases rows : unseen node mayHold s segment.2 with
    | nil =>
      refine iff_of_true (fun again => ?_) (.inr (found.mp rows))
      simp [reconcileSegment, covered, keep, rows]
    | cons row rest =>
      refine iff_of_false (fun alone => ?_) ?_
      · -- A call under the spare id writes its file.
        have written := alone ⟨spare, none, none, none, none⟩
        simp only [reconcileSegment, covered, if_true, keep, rows] at written
        have files := @installSegment_writes node s (partOf node segment spare (row :: rest))
          ⟨spare, none, none, none, none⟩ (address_new image listed unused.live) rfl rfl
        rw [written, show (partOf node segment spare (row :: rest)).1.segmentId = spare from rfl] at files
        have there := congrArg (fun files => files.get? spare) files
        simp only [get?_insert, if_true, unused.file] at there
        cases there
      · rintro (⟨r, inside, fails⟩ | all)
        · exact clear r inside fails
        · rw [found.mpr all] at rows
          cases rows

section
variable {w : Written}

theorem Adds.listed (adds : Adds node s s' w) (keyed : s.catalog.Keyed) (fits : Admissible s w)
    (listed : ∀ m ∈ s.catalog.manifests, owner m.contentAddress = m.segmentId)
    (own : owner w.1.contentAddress = w.1.segmentId) :
    ∀ m ∈ s'.catalog.manifests, owner m.contentAddress = m.segmentId := by
  intro m live
  rcases mem_append.mp ((adds.manifests keyed fits).mem_iff.mp live) with old | new
  · exact listed m old
  · obtain rfl := mem_singleton.mp new
    exact own

theorem Adds.unused {spare : Id} (adds : Adds node s s' w) (keyed : s.catalog.Keyed) (fits : Admissible s w)
    (unused : Unused s spare) (other : spare ≠ w.1.segmentId) : Unused s' spare where
  live := by
    rw [((adds.manifests keyed fits).map Manifest.segmentId).mem_iff, map_append, mem_append]
    rintro (old | new)
    · exact unused.live old
    · exact other (by simpa using new)
  sealing := adds.memory ▸ unused.sealing
  file := by rw [adds.files, get?_insert, if_neg other, unused.file]

theorem Adds.overlaps (adds : Adds node s s' w) (keyed : s.catalog.Keyed) (fits : Admissible s w)
    (tablet : w.1.tabletId = segment.1.tabletId) (range : w.1.logRange = segment.1.logRange) :
    overlaps s' segment.1 = true ↔ overlaps s segment.1 = true ∨ segment.1.logRange.1 ≤ segment.1.logRange.2 := by
  rw [Reconcile.overlaps, Reconcile.overlaps, any_eq_true, any_eq_true]
  simp only [(adds.manifests keyed fits).mem_iff, mem_append, mem_singleton]
  constructor
  · rintro ⟨m, old | rfl, covers⟩
    · exact .inl ⟨m, old, covers⟩
    · have both := of_decide_eq_true covers
      exact .inr (range ▸ both.2.1)
  · rintro (⟨m, old, covers⟩ | inOrder)
    · exact ⟨m, .inl old, covers⟩
    · exact ⟨_, .inr rfl, decide_eq_true ⟨tablet, by rw [range]; exact inOrder, by rw [range]; exact inOrder⟩⟩

theorem Adds.leaves_alone_iff {spare : Id} (adds : Adds node s s' w) (genuine : Genuine node owner s segment)
    (fits : Admissible s w) (own : owner w.1.contentAddress = w.1.segmentId) (unused : Unused s spare)
    (other : spare ≠ w.1.segmentId) (covered : Reconcile.overlaps s' segment.1 = true) :
    (∀ again, (reconcileSegment node mayHold again s' segment).1 = s') ↔ Rests node mayHold s w segment := by
  rw [Reconcile.leaves_alone_iff genuine.image (adds.listed genuine.keyed fits genuine.listed own)
    (adds.unused genuine.keyed fits unused other) covered, Rests]
  refine or_congr ?_ ?_
  · exact exists_congr fun row => and_congr_right fun _ => adds.fails genuine.keyed fits
  · exact forall₂_congr fun row _ => adds.finds genuine.keyed fits

end

theorem copies_pos {row : EventRow} (inside : row ∈ rows) : 0 < copies rows row.eventId :=
  countP_pos_iff.mpr ⟨row, inside, by simp⟩

theorem copies_unseen (clear : ∀ row ∈ rows, ¬ (s.sight node.hash mayHold row.eventId).Fails row.eventId)
    {row : EventRow} (inside : row ∈ rows) :
    ((s.sight node.hash mayHold row.eventId).Finds node.floatText s.tombstones row.eventId →
      copies (unseen node mayHold s rows) row.eventId = 0) ∧
    (¬ (s.sight node.hash mayHold row.eventId).Finds node.floatText s.tombstones row.eventId →
      copies (unseen node mayHold s rows) row.eventId = copies rows row.eventId) := by
  constructor
  · intro finds
    rw [copies, countP_eq_zero]
    intro r there
    rw [unseen, List.mem_filter, decide_eq_true_eq, lookupEvent_eq_none] at there
    rw [decide_eq_true_eq]
    intro same
    rw [same] at there
    exact there.2.2 finds
  · intro hides
    rw [copies, copies, unseen, countP_filter]
    refine countP_congr fun r there => ?_
    simp only [decide_eq_true_eq, Bool.and_eq_true]
    constructor
    · exact fun both => both.1
    · intro same
      refine ⟨same, ?_⟩
      rw [same]
      exact lookupEvent_eq_none.mpr ⟨clear row inside, hides⟩

theorem admissible_received (genuine : Genuine node owner s segment)
    (new : segment.1.segmentId ∉ s.catalog.manifests.map Manifest.segmentId) : Admissible s (received segment) :=
  ⟨new, genuine.sealing, show "local" ≠ "" by decide, genuine.moments⟩

theorem admissible_partOf {id : Id} (genuine : Genuine node owner s segment) (unused : Unused s id) :
    Admissible s (partOf node segment id (unseen node mayHold s segment.2)) :=
  ⟨unused.live, unused.sealing, show "local" ≠ "" by decide, fun row inside => genuine.moments row (List.mem_filter.mp inside).1⟩

theorem once_received_iff {spare : Id} (genuine : Genuine node owner s segment) (unused : Unused s spare)
    (other : spare ≠ segment.1.segmentId) (uncovered : overlaps s segment.1 = false)
    (new : segment.1.segmentId ∉ s.catalog.manifests.map Manifest.segmentId)
    (adds : Adds node s s' (received segment)) :
    (OnceEach s s' segment ∧ ∀ again, (reconcileSegment node mayHold again s' segment).1 = s') ↔
      (∀ row ∈ segment.2, copies (stored s) row.eventId ≤ 1 →
        copies (stored s) row.eventId = 0 ∧ copies segment.2 row.eventId = 1) ∧
      (segment.1.logRange.1 ≤ segment.1.logRange.2 → Rests node mayHold s (received segment) segment) := by
  have fits := admissible_received genuine new
  refine and_congr ?_ ?_
  · refine forall₂_congr fun row inside => imp_congr_right fun most => ?_
    have positive := copies_pos inside
    rw [adds.copies genuine.keyed fits]
    change _ + copies segment.2 row.eventId = 1 ↔ _
    omega
  · have after : overlaps s' segment.1 = true ↔
        overlaps s segment.1 = true ∨ segment.1.logRange.1 ≤ segment.1.logRange.2 :=
      adds.overlaps genuine.keyed fits rfl rfl
    rw [uncovered] at after
    by_cases range : segment.1.logRange.1 ≤ segment.1.logRange.2
    · have covered := after.mpr (.inr range)
      rw [adds.leaves_alone_iff genuine fits genuine.address unused other covered]
      exact ⟨fun rests _ => rests, fun rests => rests range⟩
    · refine iff_of_true (fun again => ?_) fun inOrder => absurd inOrder range
      have open' : overlaps s' segment.1 = false := by
        rw [← Bool.not_eq_true, after]
        simpa using range
      rw [reconcileSegment, if_neg (by simp [open'])]
      refine installSegment_held (any_eq_true.mpr ⟨_, (adds.manifests genuine.keyed fits).mem_iff.mpr
        (mem_append_right _ (mem_singleton.mpr rfl)), ?_⟩)
      exact decide_eq_true rfl

theorem once_partOf_iff {id spare : Id} (genuine : Genuine node owner s segment) (drawn : Unused s id)
    (unused : Unused s spare) (other : spare ≠ id) (covered : overlaps s segment.1 = true)
    (clear : ∀ row ∈ segment.2, ¬ (s.sight node.hash mayHold row.eventId).Fails row.eventId)
    (adds : Adds node s s' (received (partOf node segment id (unseen node mayHold s segment.2)))) :
    (OnceEach s s' segment ∧ ∀ again, (reconcileSegment node mayHold again s' segment).1 = s') ↔
      (∀ row ∈ segment.2, (copies (stored s) row.eventId = 0 → copies segment.2 row.eventId = 1) ∧
        (copies (stored s) row.eventId = 1 →
          (s.sight node.hash mayHold row.eventId).Finds node.floatText s.tombstones row.eventId)) ∧
      Rests node mayHold s (partOf node segment id (unseen node mayHold s segment.2)) segment := by
  have fits := @admissible_partOf node mayHold owner s segment id genuine drawn
  have same : received (partOf node segment id (unseen node mayHold s segment.2)) =
      partOf node segment id (unseen node mayHold s segment.2) := rfl
  rw [same] at adds
  refine and_congr ?_ ?_
  · refine forall₂_congr fun row inside => ?_
    have positive := copies_pos inside
    obtain ⟨found, hidden⟩ := copies_unseen clear inside
    rw [adds.copies genuine.keyed fits]
    change (_ → _ + copies (unseen node mayHold s segment.2) row.eventId = 1) ↔ _
    by_cases finds : (s.sight node.hash mayHold row.eventId).Finds node.floatText s.tombstones row.eventId
    · have there := copies_of_finds finds
      have none := found finds
      simp only [finds, implies_true, and_true]
      omega
    · have all := hidden finds
      simp only [finds, imp_false]
      omega
  · have after := (adds.overlaps genuine.keyed fits rfl rfl).mpr (.inl covered)
    exact adds.leaves_alone_iff genuine fits (genuine.image _ _) unused other after

theorem adds_of_reconciled (genuine : Genuine node owner s segment) (drawn : Unused s o.newSegmentId)
    (covered : overlaps s segment.1 = true)
    (keep : missing node mayHold s segment.2 = .ok (unseen node mayHold s segment.2))
    (some : unseen node mayHold s segment.2 ≠ []) (ok : reconcileSegment node mayHold o s segment = (s', .ok done)) :
    Adds node s s' (received (partOf node segment o.newSegmentId (unseen node mayHold s segment.2))) := by
  obtain ⟨row, rest, rows⟩ := exists_cons_of_ne_nil some
  simp only [reconcileSegment, covered, if_true, keep, rows] at ok
  rw [rows]
  split at ok
  · cases congrArg Prod.snd ok
  · simp only [Prod.mk.injEq] at ok
    obtain ⟨left, result⟩ := ok
    have new := @address_new node owner s segment o.newSegmentId (row :: rest) genuine.image genuine.listed
      drawn.live
    cases call : installSegment node o s (partOf node segment o.newSegmentId (row :: rest)) with
    | mk after answer =>
      rw [call] at left result
      obtain rfl : after = s' := left
      cases answer with
      | error e => cases result
      | ok installed =>
        rcases installSegment_ok call with ⟨held, -⟩ | ⟨-, adds⟩
        · rw [new] at held
          cases held
        · exact adds

/-- A call that returns leaves each event of the segment once, and a second call changes nothing,
exactly where the segment brings each of its events once. -/
theorem reconcile_counts_once_iff {spare : Id} (genuine : Genuine node owner s segment)
    (drawn : Unused s o.newSegmentId) (unused : Unused s spare)
    (other : spare ≠ o.newSegmentId ∧ spare ≠ segment.1.segmentId)
    (ok : reconcileSegment node mayHold o s segment = (s', .ok done)) :
    (OnceEach s s' segment ∧ ∀ again, (reconcileSegment node mayHold again s' segment).1 = s') ↔
      BringsOnce node mayHold s segment o.newSegmentId := by
  unfold BringsOnce
  by_cases covered : overlaps s segment.1 = true
  · rw [if_pos covered]
    rcases @missing_cases node mayHold s segment.2 with ⟨-, e, stops⟩ | ⟨clear, keep⟩
    · simp [reconcileSegment, covered, stops] at ok
    · by_cases none : unseen node mayHold s segment.2 = []
      · -- Every row was found, now and the next time.
        have found := (unseen_eq_nil clear).mp none
        simp only [reconcileSegment, covered, if_true, keep, none] at ok
        obtain ⟨rfl, -⟩ := Prod.mk.inj ok
        refine iff_of_true ⟨fun row inside most => ?_, ?_⟩ fun some => absurd none some
        · have there := copies_of_finds (found row inside)
          omega
        · exact (leaves_alone_iff genuine.image genuine.listed unused covered).mpr (.inr found)
      · have adds := adds_of_reconciled genuine drawn covered keep none ok
        rw [← once_partOf_iff genuine drawn unused other.1 covered clear adds]
        exact ⟨fun once _ => once, fun once => once none⟩
  · rw [if_neg covered]
    simp only [reconcileSegment, if_neg covered] at ok
    rcases installSegment_ok ok with ⟨held, rfl⟩ | ⟨new, adds⟩
    · -- The segment is live, under its own address.
      obtain ⟨m, live, equal⟩ := List.any_eq_true.mp held
      have same : m.segmentId = segment.1.segmentId := by
        rw [← genuine.listed m live, of_decide_eq_true equal, genuine.address]
      refine iff_of_true ⟨fun row inside most => ?_, fun again => ?_⟩ fun absent =>
        absurd (same ▸ List.mem_map_of_mem live) absent
      · have there : 0 < copies (stored s') row.eventId := by
          refine copies_pos (List.mem_append_right _ (List.mem_flatMap.mpr ⟨m, live, ?_⟩))
          rw [(genuine.same m live same).2]
          exact inside
        omega
      · rw [reconcileSegment, if_neg covered]
        exact installSegment_held held
    · have absent : segment.1.segmentId ∉ s.catalog.manifests.map Manifest.segmentId := by
        intro there
        obtain ⟨m, live, same⟩ := List.mem_map.mp there
        refine absurd (decide_eq_true (genuine.same m live same).1) ?_
        simpa using List.any_eq_false.mp new m live
      rw [← once_received_iff genuine unused other.2 (by simpa using covered) absent adds]
      exact ⟨fun once _ => once, fun once => once absent⟩

end

def quiet (newSegmentId : Id) : Outside := ⟨newSegmentId, none, none, none, none⟩

def sealedElsewhere : Written :=
  ({ plainManifest 5 with contentAddress := Id.bytes 5, rowCount := 1 }, [opened7])

def holding (rows : List EventRow) : Store := ⟨⟨rows, []⟩, .empty, ∅⟩

theorem reconcile_counts_once_in_empty : ∃ s' done,
    reconcileSegment plainNode (fun _ _ _ => true) (quiet 8) (holding []) sealedElsewhere = (s', .ok done) ∧
      ((OnceEach (holding []) s' sealedElsewhere ∧
        ∀ again, (reconcileSegment plainNode (fun _ _ _ => true) again s' sealedElsewhere).1 = s') ↔
          BringsOnce plainNode (fun _ _ _ => true) (holding []) sealedElsewhere 8) := by
  have empty : (holding []).catalog.manifests = [] := by decide
  have genuine : Genuine plainNode Id.ofBytes (holding []) sealedElsewhere :=
    { keyed := ⟨Catalog.recorded_empty, by simp [holding, Catalog.empty]⟩
      image := fun m _ => Id.ofBytes_bytes m.segmentId
      listed := by simp [empty]
      address := Id.ofBytes_bytes 5
      same := by simp [empty]
      sealing := by simp [holding]
      moments := by decide }
  have unused : ∀ id, Unused (holding []) id := fun id =>
    ⟨by simp [empty], by simp [holding], rfl⟩
  have returned : (reconcileSegment plainNode (fun _ _ _ => true) (quiet 8) (holding []) sealedElsewhere).2 =
      .ok ⟨5, 1, 0, false⟩ := by decide +kernel
  cases call : reconcileSegment plainNode (fun _ _ _ => true) (quiet 8) (holding []) sealedElsewhere with
  | mk s' answer =>
    rw [call] at returned
    obtain rfl : answer = .ok ⟨5, 1, 0, false⟩ := returned
    exact ⟨s', _, rfl, @reconcile_counts_once_iff plainNode (fun _ _ _ => true) Id.ofBytes (holding []) s'
      sealedElsewhere (quiet 8) _ 9 genuine (unused (quiet 8).newSegmentId) (unused 9)
      ⟨by decide, by decide⟩ call⟩

/-- The row is in the open buffer, which no log range of a segment says. -/
theorem reconcile_doubles_an_open_row :
    ((reconcileSegment plainNode (fun _ _ _ => true) (quiet 8) (holding [opened7]) sealedElsewhere).2 =
      .ok ⟨5, 1, 0, false⟩) ∧ copies (stored (holding [opened7])) 7 = 1 ∧
    copies (stored (reconcileSegment plainNode (fun _ _ _ => true) (quiet 8) (holding [opened7])
      sealedElsewhere).1) 7 = 2 := by
  decide +kernel
end TallyOwl.Reconcile
