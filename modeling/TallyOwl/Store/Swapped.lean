import TallyOwl.Store.LocatorComplete

/-! What stays of a store over its catalog transactions: the files, what the locator names, and
over a swap with the same rows all that is stored. -/
namespace TallyOwl
open Lib Format Locate List OrderedMap

def Published.rowsOf (s : Published) (id : Id) : List EventRow := (s.files.get? id).getD []

def Published.live (s : Published) : List EventRow :=
  s.catalog.manifests.flatMap fun m => s.rowsOf m.segmentId

/-- The replacements are written under a tier, and hold the same rows as the live segments
that they retire. -/
def SameRows (s : Published) (retire : List Id) (segments : List Written) : Prop :=
  (∀ w ∈ segments, w.1.tier ≠ "") ∧ (segments.flatMap Prod.snd).Perm
    ((s.catalog.manifests.filter fun m : Manifest => m.segmentId ∈ retire).flatMap fun m =>
      s.rowsOf m.segmentId)

instance (s : Published) (retire : List Id) (segments : List Written) :
    Decidable (SameRows s retire segments) := inferInstanceAs (Decidable (_ ∧ _))

section
variable (hash : Bytes → UInt64) (floatText : UInt64 → String)

def Entered (s : Published) (e : Entry) : Prop :=
  ∃ x ∈ s.files.entries, ∃ row ∈ x.2, ∃ v ∈ indexedValues floatText row,
    e = Locator.entryOf hash v.1 v.2 x.1

/-- The locator names every live segment under all that its rows are indexed under. -/
def NamesLive (s : Published) (locator : Locator) : Prop :=
  ∀ m ∈ s.catalog.manifests, ∀ row ∈ s.rowsOf m.segmentId, ∀ v ∈ indexedValues floatText row,
    m.segmentId ∈ locator.candidates hash v.1 v.2 none

def NamesEntered (s : Published) (locator : Locator) : Prop :=
  ∀ column value, ∀ id ∈ locator.candidates hash column value none,
    Entered hash floatText s (Locator.entryOf hash column value id)

/-- The locator is complete, and both it and the files go back to published segments. -/
structure Filed (s : Published) : Prop where
  complete : Complete hash floatText s
  recorded : ∀ x ∈ s.files.entries, ∃ r ∈ s.catalog.segments.values, r.segmentId = x.1
  entered : ∀ e, s.catalog.StoresEntry e → Entered hash floatText s e

end

/-- What a transaction leaves: every file and predicate, and the segments unless it counts up
the generation. -/
structure Onwards (s t : Published) : Prop where
  files : ∀ x ∈ s.files.entries, x ∈ t.files.entries
  tombstones : t.catalog.tombstones = s.catalog.tombstones
  generation : t.catalog.generation = s.catalog.generation + 1 ∨
    t.catalog.generation = s.catalog.generation ∧ t.catalog.manifests = s.catalog.manifests ∧
      t.files = s.files

section
variable {hash : Bytes → UInt64} {floatText : UInt64 → String} {s t : Published}

theorem Onwards.rowsOf (onwards : Onwards s t) {id : Id} {rows : List EventRow}
    (found : s.files.get? id = some rows) : t.files.get? id = some rows :=
  get?_eq_some.mpr (onwards.files _ (get?_eq_some.mp found))

theorem Onwards.generation_le (onwards : Onwards s t) : s.catalog.generation ≤ t.catalog.generation := by
  rcases onwards.generation with up | ⟨same, -⟩ <;> omega

theorem Entered.onwards {e : Entry} (entered : Entered hash floatText s e) (onwards : Onwards s t) :
    Entered hash floatText t e := by
  obtain ⟨x, inside, rest⟩ := entered
  exact ⟨x, onwards.files x inside, rest⟩

theorem NamesEntered.onwards {locator : Locator} (names : NamesEntered hash floatText s locator)
    (onwards : Onwards s t) : NamesEntered hash floatText t locator :=
  fun column value id named => (names column value id named).onwards onwards

theorem NamesLive.onwards {locator : Locator} (names : NamesLive hash floatText s locator)
    (manifests : t.catalog.manifests = s.catalog.manifests) (files : t.files = s.files) :
    NamesLive hash floatText t locator := by
  unfold NamesLive Published.rowsOf
  rw [manifests, files]
  exact names

theorem Filed.empty : Filed hash floatText .empty :=
  ⟨.empty, by simp [Published.empty], by simp [Published.empty, Catalog.empty, Catalog.StoresEntry]⟩

variable {retire : List Id} {segments : List Written}

variable (filed : Filed hash floatText s)
include filed

theorem Filed.fresh
    (fresh : FreshSegments s.catalog retire segments) {x : Id × List EventRow}
    (inside : x ∈ s.files.entries) : x ∈ (withFiles s.files segments).entries := by
  obtain ⟨r, there, same⟩ := filed.recorded x inside
  exact mem_foldl_insert_old inside fun w mem own => (fresh.2.1 w mem).2 r there (same.trans own.symm)

theorem Filed.publish {catalog : Catalog} {checkpoint : Option Nat}
    (fresh : FreshSegments s.catalog retire segments)
    (published : s.catalog.publishInOneTransaction retire (segments.map Prod.fst)
      (locatorFor hash floatText segments) checkpoint = some catalog) {jobs : List Job}
    (named : ∀ job ∈ jobs, job ∈ s.jobs ∨ ∀ id ∈ job.retired, id ∈ retire) :
    Filed hash floatText ⟨catalog, withFiles s.files segments, jobs⟩ ∧
      Onwards s ⟨catalog, withFiles s.files segments, jobs⟩ := by
  have distinct : ((segments.map Prod.fst).map Manifest.segmentId).Nodup := by
    simpa [Function.comp_def] using fresh.1
  have sound : ∀ x ∈ (locatorFor hash floatText segments).runs.entries,
      x.2.bucket = x.1 ∧ InI64 x.1 := sound_locatorFor fun w inside row there =>
    inI64_bucketOf (fresh.2.2 w inside row there).1 (fresh.2.2 w inside row there).2
  have onwards : Onwards s ⟨catalog, withFiles s.files segments, jobs⟩ :=
    ⟨fun x inside => filed.fresh fresh inside, (Catalog.publish_tombstones published).1,
      .inl (Catalog.publish_generation published)⟩
  refine ⟨⟨filed.complete.publish fresh published named, ?_, fun e stored => ?_⟩, onwards⟩
  · intro x inside
    rcases mem_foldl_insert inside with old | ⟨w, mem, rfl⟩
    · obtain ⟨r, there, same⟩ := filed.recorded x old
      obtain ⟨key, there⟩ := mem_values.mp there
      exact ⟨r, mem_values.mpr ⟨key, filed.complete.keyed.segments.publish_old published there⟩, same⟩
    · exact ⟨_, Catalog.publish_new published distinct (mem_map.mpr ⟨w, mem, rfl⟩), rfl⟩
  · rcases (filed.complete.keyed.publish_stores sound published).mp stored with old | new
    · exact (filed.entered e old).onwards onwards
    · obtain ⟨w, mem, row, there, v, indexed, rfl⟩ := holds_locatorFor.mp new
      refine ⟨(w.1.segmentId, w.2), mem_foldl_insert_new mem fun w' mem' same => ?_,
        row, there, v, indexed, rfl⟩
      rw [inj_on_of_nodup_map fresh.1 mem' mem same]

theorem Filed.step {e : Tx} (unique : UniqueIds s e)
    (next : s.step hash floatText e = some t) : Filed hash floatText t ∧ Onwards s t := by
  cases e with
  | seals segments checkpoint =>
    obtain ⟨catalog, published, same⟩ := Option.bind_eq_some_iff.mp next
    cases same
    exact filed.publish unique published fun job inside => .inl inside
  | installs segments =>
    obtain ⟨catalog, published, same⟩ := Option.bind_eq_some_iff.mp next
    cases same
    exact filed.publish unique published fun job inside => .inl inside
  | swaps retire segments buckets =>
    obtain ⟨catalog, published, same⟩ := Option.bind_eq_some_iff.mp next
    cases same
    refine filed.publish unique published fun job inside => ?_
    rcases mem_append.mp inside with old | new
    · exact .inl old
    · obtain rfl := mem_singleton.mp new
      exact .inr fun id there => there
  | consolidates j =>
    have complete := filed.complete.step unique next
    simp only [Published.step] at next
    split at next
    · obtain ⟨catalog, done, same⟩ := Option.bind_eq_some_iff.mp next
      cases same
      obtain ⟨-, ⟨runs, rfl⟩, -, before⟩ := filed.complete.keyed.consolidated done
      exact ⟨⟨complete, filed.recorded, fun e stored => filed.entered e (before e stored)⟩,
        ⟨fun _ inside => inside, rfl, .inr ⟨rfl, rfl, rfl⟩⟩⟩
    · cases next

theorem Filed.file {m : Manifest} (live : m ∈ s.catalog.manifests) :
    ∃ rows, s.files.get? m.segmentId = some rows := by
  obtain ⟨record, tier, -⟩ := Catalog.mem_manifests live
  obtain ⟨rows, there, -⟩ := filed.complete.filed m record tier
  exact ⟨rows, get?_eq_some.mpr there⟩

theorem Filed.locator : ∃ locator, s.catalog.locator = .ok locator ∧
    NamesLive hash floatText s locator ∧ NamesEntered hash floatText s locator := by
  obtain ⟨locator, read, named⟩ := filed.complete.keyed.locator_ok
  refine ⟨locator, read, fun m live row there v indexed => ?_, fun column value id inside =>
    filed.entered _ ((named hash column value id).mp inside)⟩
  obtain ⟨record, tier, newest⟩ := Catalog.mem_manifests live
  obtain ⟨rows, found, stored⟩ := filed.complete.filed m record tier
  rw [Published.rowsOf, get?_eq_some.mpr found, Option.getD_some] at there
  refine (named hash v.1 v.2 m.segmentId).mpr (stored (fun r inside same empty => ?_) row there v indexed)
  have later := filed.complete.ordered r inside m record same empty tier
  have earlier := newest r inside same
  omega

omit filed

/-- What a swap with the same rows does to what is stored: nothing. -/
structure Swapped (s t : Published) (segments : List Written) : Prop where
  live : t.live.Perm s.live
  listed : ∀ m ∈ t.catalog.manifests, m ∈ s.catalog.manifests ∨ ∃ w ∈ segments, t.rowsOf m.segmentId = w.2
  brought : ∀ w ∈ segments, ∀ row ∈ w.2, row ∈ s.live
  files : ∀ x ∈ t.files.entries, x ∈ s.files.entries ∨ ∃ w ∈ segments, x.2 = w.2

theorem Filed.swapped {buckets : List Int}
    (filed : Filed hash floatText s) (fresh : FreshSegments s.catalog retire segments)
    (same : SameRows s retire segments)
    (next : s.step hash floatText (.swaps retire segments buckets) = some t) : Swapped s t segments := by
  have unique : UniqueIds s (.swaps retire segments buckets) := fresh
  have onwards := (filed.step unique next).2
  obtain ⟨catalog, published, equal⟩ := Option.bind_eq_some_iff.mp next
  cases equal
  have distinct : ((segments.map Prod.fst).map Manifest.segmentId).Nodup := by
    simpa [Function.comp_def] using fresh.1
  have tier : ∀ m ∈ segments.map Prod.fst, m.tier ≠ "" := by
    intro m inside
    obtain ⟨w, mem, rfl⟩ := mem_map.mp inside
    exact same.1 w mem
  have other : ∀ m ∈ s.catalog.manifests, ∀ n ∈ segments.map Prod.fst, n.segmentId ≠ m.segmentId := by
    intro m live n inside own
    obtain ⟨w, mem, rfl⟩ := mem_map.mp inside
    exact (fresh.2.1 w mem).2 m (Catalog.mem_manifests live).1 own.symm
  have now := filed.complete.keyed.segments.manifests_published published distinct tier other
  have rows : ∀ w ∈ segments, (withFiles s.files segments).get? w.1.segmentId = some w.2 := by
    intro w inside
    refine get?_eq_some.mpr (mem_foldl_insert_new inside fun w' mem' own => ?_)
    rw [inj_on_of_nodup_map fresh.1 mem' inside own]
  have stays : ∀ m ∈ s.catalog.manifests, ((withFiles s.files segments).get? m.segmentId).getD [] =
      s.rowsOf m.segmentId := by
    intro m live
    obtain ⟨file, found⟩ := filed.file live
    rw [onwards.rowsOf found, Published.rowsOf, found]
  refine ⟨?_, fun m live => ?_, fun w inside row there => ?_, fun x inside => ?_⟩
  · have all : (catalog.manifests.flatMap fun m => ((withFiles s.files segments).get? m.segmentId).getD []).Perm
        (((s.catalog.manifests.filter fun m : Manifest => m.segmentId ∉ retire).flatMap fun m =>
          s.rowsOf m.segmentId) ++ segments.flatMap Prod.snd) := by
      refine (now.flatMap_right _).trans (List.Perm.of_eq ?_)
      rw [flatMap_append, map_map, flatMap_map]
      congr 1
      · exact flatMap_congr fun m inside => stays m (List.mem_filter.mp inside).1
      · refine flatMap_congr fun w inside => ?_
        simp only [Function.comp_apply, rows w inside, Option.getD_some]
    have halves := (filter_append_perm (fun m : Manifest => decide (m.segmentId ∈ retire))
      s.catalog.manifests).flatMap_right fun m => s.rowsOf m.segmentId
    rw [flatMap_append] at halves
    refine all.trans (perm_append_comm.trans ((same.2.append_right _).trans ?_))
    rw [Published.live]
    simpa only [decide_not] using halves
  · rcases mem_append.mp (now.mem_iff.mp live) with old | new
    · exact .inl (List.mem_filter.mp old).1
    · obtain ⟨n, mem, rfl⟩ := mem_map.mp new
      obtain ⟨w, inside, rfl⟩ := mem_map.mp mem
      exact .inr ⟨w, inside, by simp [Published.rowsOf, rows w inside]⟩
  · have retired := same.2.mem_iff.mp (mem_flatMap.mpr ⟨w, inside, there⟩)
    obtain ⟨m, mem, held⟩ := mem_flatMap.mp retired
    exact mem_flatMap.mpr ⟨m, (List.mem_filter.mp mem).1, held⟩
  · rcases mem_foldl_insert inside with old | ⟨w, mem, rfl⟩
    · exact .inl old
    · exact .inr ⟨w, mem, rfl⟩

theorem swapped_consolidated {j : Nat} (next : s.step hash floatText (.consolidates j) = some t) :
    t.catalog.manifests = s.catalog.manifests ∧ Swapped s t [] := by
  have same : t.catalog.manifests = s.catalog.manifests ∧ t.files = s.files := by
    simp only [Published.step] at next
    split at next
    · obtain ⟨catalog, done, same⟩ := Option.bind_eq_some_iff.mp next
      cases same
      obtain ⟨runs, rfl⟩ := Catalog.consolidate_runs done
      exact ⟨rfl, rfl⟩
    · cases next
  obtain ⟨manifests, files⟩ := same
  refine ⟨manifests, List.Perm.of_eq ?_, fun m live => .inl (manifests ▸ live), by simp, fun x inside =>
    .inl (files ▸ inside)⟩
  unfold Published.live Published.rowsOf
  rw [manifests, files]

theorem file_of_live {row : EventRow} (stored : row ∈ s.live) : ∃ x ∈ s.files.entries, row ∈ x.2 := by
  obtain ⟨m, -, held⟩ := mem_flatMap.mp stored
  rw [Published.rowsOf] at held
  cases found : s.files.get? m.segmentId with
  | none => simp [found] at held
  | some file =>
    rw [found, Option.getD_some] at held
    exact ⟨_, get?_eq_some.mp found, held⟩

end

end TallyOwl
