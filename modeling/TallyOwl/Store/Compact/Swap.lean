import TallyOwl.Store.LookupEvent

/-! How a compaction reads a segment and swaps segments for their replacements (`compact.rs`,
`swap_segments`), and what is live after a swap. -/
namespace TallyOwl.Compact
open Lib Format Locate Segmented LookupEvent List OrderedMap

structure CompactionSettings where
  groupBy : Option String
  detailedRetentionMs : Int
  rollupRetentionMs : Int
  coldGroupAfterMs : Int
  coldGroupTargetBytes : Nat
  coldGroupBatchBytes : Nat

/-- What one swap draws, and how the segment writer, the device and the storage engine answer it. -/
structure Outside where
  newSegmentId : ℕ → Id
  build : List EventRow → Option StoreError
  room : Option StoreError
  write : Option StoreError
  publish : Option StoreError
  consolidate : Option StoreError

def quiet (newSegmentId : ℕ → Id) : Outside := ⟨newSegmentId, fun _ => none, none, none, none, none⟩

def Outside.refuses (o : Outside) (rows : List EventRow) : Option StoreError :=
  if rows = [] then some (.invalidArgument needsOneItem) else o.build rows

def readSegmentRows (s : Store) (m : Manifest) : Except StoreError (List EventRow) :=
  match s.openSegment m.segmentId with
  | .error reason => .error (.damaged reason)
  | .ok file => file.readRows

def withSegments (files : OrderedMap Id File) (segments : List Written) : OrderedMap Id File :=
  segments.foldl (fun files w => files.insert w.1.segmentId ⟨w.2, none⟩) files

section
variable (node : Node)

def replacementsOf (o : Outside) (replacements : List (Manifest × List EventRow)) : List Written :=
  replacements.mapIdx fun k r => replacement node r.1 (o.newSegmentId k) r.2

def swapSegments (o : Outside) (s : Store) (retire : List Id)
    (replacements : List (Manifest × List EventRow)) : Store × Except StoreError Nat :=
  match replacements.findSome? fun r => o.refuses r.2 with
  | some e => (s, .error e)
  | none =>
      match o.room, if replacements = [] then none else o.write with
      | some e, _ => (s, .error e)
      -- A file that was written before is one no manifest names.
      | none, some e => (s, .error e)
      | none, none =>
          let segments := replacementsOf node o replacements
          let written := { s with files := withSegments s.files segments }
          match o.publish, s.catalog.swapWithLocator retire (segments.map Prod.fst)
              (locatorFor node.hash node.floatText segments) with
          | some e, _ => (written, .error e)
          | none, none => (written, .error doesNotFit)
          | none, some catalog =>
              ({ written with catalog }, match o.consolidate with
                | some e => .error e
                | none => .ok catalog.generation)

end

def liveRows (s : Store) : List EventRow := s.catalog.manifests.flatMap s.rowsOf

/-- The ids that a swap draws are of nothing live, and apart. -/
structure Fresh (o : Outside) (s : Store) (drawn : ℕ) : Prop where
  unused : ∀ k < drawn, o.newSegmentId k ∉ s.catalog.manifests.map Manifest.segmentId
  distinct : ∀ j < drawn, ∀ k < drawn, o.newSegmentId j = o.newSegmentId k → j = k

theorem Fresh.mono {o : Outside} {s : Store} {drawn fewer : ℕ} (fresh : Fresh o s drawn) (le : fewer ≤ drawn) :
    Fresh o s fewer :=
  ⟨fun k less => fresh.unused k (less.trans_le le), fun j first k second =>
    fresh.distinct j (first.trans_le le) k (second.trans_le le)⟩

structure Swaps (node : Node) (o : Outside) (s s' : Store) (retire : List Id)
    (replacements : List (Manifest × List EventRow)) : Prop where
  accepted : o.room = none ∧ o.publish = none
  memory : s'.memory = s.memory
  files : s'.files = withSegments s.files (replacementsOf node o replacements)
  catalog : s.catalog.swapWithLocator retire ((replacementsOf node o replacements).map Prod.fst)
    (locatorFor node.hash node.floatText (replacementsOf node o replacements)) = some s'.catalog

section
variable {node : Node} {o : Outside} {s s' : Store} {retire : List Id}
  {replacements : List (Manifest × List EventRow)}

theorem length_replacementsOf : (replacementsOf node o replacements).length = replacements.length :=
  length_mapIdx

theorem mem_replacementsOf {w : Written} : w ∈ replacementsOf node o replacements ↔
    ∃ k, ∃ r, replacements[k]? = some r ∧ replacement node r.1 (o.newSegmentId k) r.2 = w := by
  simp only [replacementsOf, mem_mapIdx, List.getElem?_eq_some_iff]
  constructor
  · rintro ⟨k, bound, same⟩
    exact ⟨k, _, ⟨bound, rfl⟩, same⟩
  · rintro ⟨k, _, ⟨bound, rfl⟩, same⟩
    exact ⟨k, bound, same⟩

theorem rows_replacementsOf : (replacementsOf node o replacements).map Prod.snd = replacements.map Prod.snd := by
  refine ext_getElem (by simp [replacementsOf]) fun k _ _ => ?_
  simp [replacementsOf, replacement]

theorem nodup_replacementsOf (fresh : Fresh o s replacements.length) :
    ((replacementsOf node o replacements).map fun w => w.1.segmentId).Nodup := by
  have ids : (replacementsOf node o replacements).map (fun w => w.1.segmentId) =
      (List.range replacements.length).map o.newSegmentId := by
    refine ext_getElem (by simp [replacementsOf]) fun k _ _ => ?_
    simp [replacementsOf, replacement, describe]
  rw [ids]
  exact nodup_range.map_on fun j first k second =>
    fresh.distinct j (mem_range.mp first) k (mem_range.mp second)

theorem tier_replacementsOf (tiers : ∀ r ∈ replacements, r.1.tier ≠ "") :
    ∀ m ∈ (replacementsOf node o replacements).map Prod.fst, m.tier ≠ "" := by
  intro m inside
  obtain ⟨w, mem, rfl⟩ := mem_map.mp inside
  obtain ⟨k, r, found, rfl⟩ := mem_replacementsOf.mp mem
  exact tiers r (mem_of_getElem? found)

theorem get?_withSegments_old {files : OrderedMap Id File} {segments : List Written} {id : Id}
    (other : ∀ w ∈ segments, w.1.segmentId ≠ id) : (withSegments files segments).get? id = files.get? id := by
  unfold withSegments
  induction segments generalizing files with
  | nil => rfl
  | cons w rest ih =>
    obtain ⟨here, later⟩ := forall_mem_cons.mp other
    rw [foldl_cons, ih later, get?_insert, if_neg here.symm]

theorem get?_withSegments_new {files : OrderedMap Id File} {segments : List Written}
    (distinct : (segments.map fun w => w.1.segmentId).Nodup) {w : Written} (inside : w ∈ segments) :
    (withSegments files segments).get? w.1.segmentId = some ⟨w.2, none⟩ := by
  refine get?_eq_some.mpr (mem_foldl_insert_new inside fun v mem same => ?_)
  rw [inj_on_of_nodup_map distinct mem inside same]

theorem Fresh.other (fresh : Fresh o s replacements.length) {m : Manifest} (live : m ∈ s.catalog.manifests) :
    ∀ w ∈ replacementsOf node o replacements, w.1.segmentId ≠ m.segmentId := by
  intro w inside same
  obtain ⟨k, r, found, rfl⟩ := mem_replacementsOf.mp inside
  have named : o.newSegmentId k = m.segmentId := same
  exact fresh.unused k (List.getElem?_eq_some_iff.mp found).1 (named ▸ mem_map_of_mem live)

theorem rowsOf_withSegments (fresh : Fresh o s replacements.length) (files : s'.files = withSegments s.files (replacementsOf node o replacements))
    {m : Manifest} (live : m ∈ s.catalog.manifests) : s'.rowsOf m = s.rowsOf m := by
  rw [Store.rowsOf, Store.rowsOf, files, get?_withSegments_old (fresh.other live)]

theorem swapSegments_commits : Swaps node o s (swapSegments node o s retire replacements).1 retire replacements ∨
    (swapSegments node o s retire replacements).1.catalog = s.catalog ∧
      ((swapSegments node o s retire replacements).1.files = s.files ∨
        (swapSegments node o s retire replacements).1.files =
          withSegments s.files (replacementsOf node o replacements)) ∧
      ∃ e, (swapSegments node o s retire replacements).2 = .error e := by
  unfold swapSegments
  split
  · exact .inr ⟨rfl, .inl rfl, _, rfl⟩
  · split
    · exact .inr ⟨rfl, .inl rfl, _, rfl⟩
    · exact .inr ⟨rfl, .inl rfl, _, rfl⟩
    · rename_i room _
      simp only
      split
      · exact .inr ⟨rfl, .inr rfl, _, rfl⟩
      · exact .inr ⟨rfl, .inr rfl, _, rfl⟩
      · rename_i catalog publish published
        exact .inl ⟨⟨room, publish⟩, rfl, rfl, published⟩

theorem swapSegments_cases (fresh : Fresh o s replacements.length) :
    Swaps node o s (swapSegments node o s retire replacements).1 retire replacements ∨
    (swapSegments node o s retire replacements).1.catalog = s.catalog ∧
      liveRows (swapSegments node o s retire replacements).1 = liveRows s := by
  rcases @swapSegments_commits node o s retire replacements with swaps | ⟨same, files, -⟩
  · exact .inl swaps
  · refine .inr ⟨same, ?_⟩
    rw [liveRows, liveRows, same]
    refine flatMap_congr fun m live => ?_
    rcases files with kept | written
    · rw [Store.rowsOf, Store.rowsOf, kept]
    · exact rowsOf_withSegments fresh written live

theorem Swaps.liveRows (swaps : Swaps node o s s' retire replacements) (recorded : s.catalog.Recorded)
    (fresh : Fresh o s replacements.length) (tiers : ∀ r ∈ replacements, r.1.tier ≠ "") :
    (liveRows s').Perm ((s.catalog.manifests.filter fun m : Manifest => m.segmentId ∉ retire).flatMap s.rowsOf ++
      replacements.flatMap Prod.snd) := by
  have distinct := @nodup_replacementsOf node o s replacements fresh
  have listed := recorded.manifests_published swaps.catalog (by simpa [Function.comp_def] using distinct)
    (tier_replacementsOf tiers)
    (by
      intro m live n inside
      obtain ⟨w, mem, rfl⟩ := mem_map.mp inside
      exact fresh.other live w mem)
  refine (listed.flatMap_right _).trans (List.Perm.of_eq ?_)
  rw [flatMap_append, map_map, flatMap_map]
  have new : (replacementsOf node o replacements).flatMap
      (fun w => s'.rowsOf { w.1 with generation := s.catalog.generation + 1 }) = replacements.flatMap Prod.snd := by
    have rows : ∀ w ∈ replacementsOf node o replacements,
        s'.rowsOf { w.1 with generation := s.catalog.generation + 1 } = w.2 := by
      intro w inside
      rw [Store.rowsOf, swaps.files]
      simp only [get?_withSegments_new distinct inside, Option.map_some, Option.getD_some]
    rw [flatMap_congr rows, flatMap_def, rows_replacementsOf, ← flatMap_def]
  refine congr (congrArg _ (flatMap_congr fun m inside => ?_)) new
  exact rowsOf_withSegments fresh swaps.files (List.mem_filter.mp inside).1

theorem Swaps.length_manifests (swaps : Swaps node o s s' retire replacements) (recorded : s.catalog.Recorded) :
    s'.catalog.manifests.length ≤
      (s.catalog.manifests.filter fun m : Manifest => m.segmentId ∉ retire).length + replacements.length := by
  have brought : ∀ m ∈ s'.catalog.manifests, m.segmentId ∈
      (s.catalog.manifests.filter fun m : Manifest => m.segmentId ∉ retire).map Manifest.segmentId ++
        (replacementsOf node o replacements).map fun w => w.1.segmentId := by
    intro m live
    rw [mem_append]
    by_cases new : ∃ w ∈ replacementsOf node o replacements, w.1.segmentId = m.segmentId
    · obtain ⟨w, inside, same⟩ := new
      exact .inr (mem_map.mpr ⟨w, inside, same⟩)
    · have other : ∀ n ∈ (replacementsOf node o replacements).map Prod.fst, n.segmentId ≠ m.segmentId := by
        intro n inside same
        obtain ⟨w, mem, rfl⟩ := mem_map.mp inside
        exact new ⟨w, mem, same⟩
      rcases recorded.live_cases swaps.catalog live with old | ⟨n, inside, rfl⟩
      · have kept := recorded.live_unretired swaps.catalog old live other
        exact .inl (mem_map_of_mem (List.mem_filter.mpr ⟨old, by simpa using kept⟩))
      · exact absurd rfl (other n inside)
  have few := (subperm_of_subset (Catalog.nodup_manifests s'.catalog) fun id inside => by
    obtain ⟨m, live, rfl⟩ := mem_map.mp inside
    exact brought m live).length_le
  simpa [length_replacementsOf] using few

theorem Swaps.length_add_le (swaps : Swaps node o s s' retire replacements) (recorded : s.catalog.Recorded)
    (live : ∀ id ∈ retire, id ∈ s.catalog.manifests.map Manifest.segmentId) (distinct : retire.Nodup) :
    s'.catalog.manifests.length + retire.length ≤ s.catalog.manifests.length + replacements.length := by
  have after := swaps.length_manifests recorded
  have gone : retire.length ≤ (s.catalog.manifests.filter fun m : Manifest => m.segmentId ∈ retire).length := by
    have few := (subperm_of_subset distinct fun id inside => by
      obtain ⟨m, there, rfl⟩ := mem_map.mp (live id inside)
      exact mem_map_of_mem (List.mem_filter.mpr ⟨there, by simpa using inside⟩) :
      retire.Subperm ((s.catalog.manifests.filter fun m : Manifest => m.segmentId ∈ retire).map
        Manifest.segmentId)).length_le
    simpa using few
  have parts := (filter_append_perm (fun m : Manifest => decide (m.segmentId ∈ retire))
    s.catalog.manifests).length_eq
  simp only [length_append, ← decide_not] at parts
  omega

end
end TallyOwl.Compact
