import TallyOwl.Lib.Runs
import TallyOwl.Store.Catalog
import TallyOwl.Store.Index
import TallyOwl.Store.Xxh3

/-! The catalog transactions of seals, installs and compaction swaps, in any order,
and the locator they leave behind: it names every live segment under every value its
rows are indexed under. -/
namespace TallyOwl
open Lib Format Locate List OrderedMap

/-- A segment about to be published: its manifest and the rows of its file. -/
abbrev Written := Manifest × List EventRow

section
variable (hash : Bytes → UInt64) (floatText : UInt64 → String)

def locatorFor (segments : List Written) : Locator :=
  (segments.foldl (fun locator s => indexRows hash floatText locator s.1.segmentId s.2) .new).sealed

/-- The rest of a swap: the buckets still to consolidate, without the retired segments. -/
structure Job where
  buckets : List Int
  retired : List Id

structure Published where
  catalog : Catalog
  files : OrderedMap Id (List EventRow)
  jobs : List Job

def Published.empty : Published := ⟨.empty, ∅, []⟩

inductive Tx where
  | seals (segments : List Written) (checkpoint : Nat)
  | installs (segments : List Written)
  | swaps (retire : List Id) (segments : List Written) (buckets : List Int)
  | consolidates (job : Nat)

def withFiles (files : OrderedMap Id (List EventRow)) (segments : List Written) :
    OrderedMap Id (List EventRow) :=
  segments.foldl (fun files s => files.insert s.1.segmentId s.2) files

/-- One committed transaction. A bucket of a swap is consolidated in a transaction of
its own, after the swap and among any others. -/
def Published.step (s : Published) : Tx → Option Published
  | .seals segments checkpoint => do
      let catalog ← s.catalog.publishSealed (segments.map Prod.fst)
        (locatorFor hash floatText segments) checkpoint
      some { s with catalog := catalog, files := withFiles s.files segments }
  | .installs segments => do
      let catalog ← s.catalog.publishWithLocator (segments.map Prod.fst)
        (locatorFor hash floatText segments)
      some { s with catalog := catalog, files := withFiles s.files segments }
  | .swaps retire segments buckets => do
      let catalog ← s.catalog.swapWithLocator retire (segments.map Prod.fst)
        (locatorFor hash floatText segments)
      some ⟨catalog, withFiles s.files segments, s.jobs ++ [⟨buckets, retire⟩]⟩
  | .consolidates j =>
      match s.jobs[j]? with
      | some ⟨bucket :: buckets, retired⟩ => do
          let catalog ← s.catalog.consolidateLocator bucket retired
          some { s with catalog := catalog, jobs := s.jobs.set j ⟨buckets, retired⟩ }
      | _ => none

end

/-- Segment ids are unique, a segment is never both retired and published, and every
moment is at least one bucket above the lowest `i64`. -/
def FreshSegments (c : Catalog) (retire : List Id) (segments : List Written) : Prop :=
  (segments.map fun s => s.1.segmentId).Nodup ∧
  (∀ s ∈ segments, s.1.segmentId ∉ retire ∧ ∀ r ∈ c.segments.values, r.segmentId ≠ s.1.segmentId) ∧
  ∀ s ∈ segments, ∀ row ∈ s.2, -2 ^ 63 + bucketMs ≤ row.occurredAt ∧ row.occurredAt < 2 ^ 63

instance (c : Catalog) (retire : List Id) (segments : List Written) :
    Decidable (FreshSegments c retire segments) := inferInstanceAs (Decidable (_ ∧ _ ∧ _))

def UniqueIds (s : Published) : Tx → Prop
  | .seals segments _ | .installs segments => FreshSegments s.catalog [] segments
  | .swaps retire segments _ => FreshSegments s.catalog retire segments
  | .consolidates _ => True

instance (s : Published) (e : Tx) : Decidable (UniqueIds s e) :=
  match e with
  | .seals segments _ => inferInstanceAs (Decidable (FreshSegments s.catalog [] segments))
  | .installs segments => inferInstanceAs (Decidable (FreshSegments s.catalog [] segments))
  | .swaps retire segments _ =>
      inferInstanceAs (Decidable (FreshSegments s.catalog retire segments))
  | .consolidates _ => inferInstanceAs (Decidable True)

def Locator.Sound (locator : Locator) : Prop :=
  ∀ x ∈ locator.runs.entries, x.2.bucket = x.1 ∧ InI64 x.1

theorem inI64_bucketOf {moment : Int} (low : -2 ^ 63 + bucketMs ≤ moment) (high : moment < 2 ^ 63) :
    InI64 (bucketOf moment) := by
  unfold bucketOf InI64
  unfold bucketMs at *
  omega

section
variable {hash : Bytes → UInt64} {floatText : UInt64 → String}

theorem sound_add {locator : Locator} {column : String} {value : Bytes} {moment : Int}
    {segment : Id} (sound : Locator.Sound locator) (fits : InI64 (bucketOf moment)) :
    Locator.Sound (locator.add hash column value moment segment) := by
  intro x inside
  rcases mem_insert.mp inside with rfl | ⟨old, -⟩
  · refine ⟨?_, fits⟩
    cases found : locator.runs.get? (bucketOf moment) with
    | none => rfl
    | some run => exact (sound _ (get?_eq_some.mp found)).1
  · exact sound x old

theorem sound_indexRow {locator : Locator} {row : EventRow} {segment : Id}
    (sound : Locator.Sound locator) (fits : InI64 (bucketOf row.occurredAt)) :
    Locator.Sound (indexRow hash floatText locator row segment) := by
  unfold indexRow
  induction indexedValues floatText row generalizing locator with
  | nil => exact sound
  | cons x rest ih => exact ih (sound_add sound fits)

theorem sound_indexRows {locator : Locator} {rows : List EventRow} {segment : Id}
    (sound : Locator.Sound locator) (fits : ∀ row ∈ rows, InI64 (bucketOf row.occurredAt)) :
    Locator.Sound (indexRows hash floatText locator segment rows) := by
  unfold indexRows
  induction rows generalizing locator with
  | nil => exact sound
  | cons row rest ih =>
    exact ih (sound_indexRow sound (fits row mem_cons_self)) fun r inside =>
      fits r (mem_cons_of_mem _ inside)

theorem sound_locatorFor {segments : List Written}
    (fits : ∀ s ∈ segments, ∀ row ∈ s.2, InI64 (bucketOf row.occurredAt)) :
    Locator.Sound (locatorFor hash floatText segments) := by
  have unsealed : ∀ locator, Locator.Sound locator → Locator.Sound (segments.foldl
      (fun locator s => indexRows hash floatText locator s.1.segmentId s.2) locator) := by
    induction segments with
    | nil => exact fun locator sound => sound
    | cons s rest ih =>
      intro locator sound
      exact ih (fun t inside => fits t (mem_cons_of_mem _ inside)) _
        (sound_indexRows sound (fits s mem_cons_self))
  intro x inside
  obtain ⟨y, old, rfl⟩ := mem_map.mp inside
  exact unsealed .new (by simp [Locator.Sound, Locator.new]) y old

theorem holds_locatorFor {segments : List Written} {e : Entry} :
    (locatorFor hash floatText segments).Holds e ↔ ∃ s ∈ segments, ∃ row ∈ s.2,
      ∃ x ∈ indexedValues floatText row, e = Locator.entryOf hash x.1 x.2 s.1.segmentId := by
  have unsealed : ∀ locator : Locator, (segments.foldl (fun locator s =>
      indexRows hash floatText locator s.1.segmentId s.2) locator).Holds e ↔ locator.Holds e ∨
      ∃ s ∈ segments, ∃ row ∈ s.2, ∃ x ∈ indexedValues floatText row,
        e = Locator.entryOf hash x.1 x.2 s.1.segmentId := by
    induction segments with
    | nil => simp
    | cons s rest ih =>
      intro locator
      rw [foldl_cons, ih, holds_indexRows]
      simp [or_assoc]
  rw [locatorFor, Locator.holds_sealed, unsealed]
  simp [Locator.Holds, Locator.new]

end

section
variable {hash : Bytes → UInt64} {floatText : UInt64 → String}

def Catalog.Unretired (c : Catalog) (id : Id) : Prop :=
  ∀ r ∈ c.segments.values, r.segmentId = id → r.tier ≠ ""

/-- The stored runs hold every entry the rows of a segment are indexed under. -/
def Indexed (hash : Bytes → UInt64) (floatText : UInt64 → String) (c : Catalog) (id : Id)
    (rows : List EventRow) : Prop :=
  ∀ row ∈ rows, ∀ x ∈ indexedValues floatText row,
    c.StoresEntry (Locator.entryOf hash x.1 x.2 id)

structure Complete (hash : Bytes → UInt64) (floatText : UInt64 → String) (s : Published) :
    Prop where
  keyed : s.catalog.Keyed
  ordered : ∀ r ∈ s.catalog.segments.values, ∀ r' ∈ s.catalog.segments.values,
    r.segmentId = r'.segmentId → r.tier = "" → r'.tier ≠ "" → r'.generation < r.generation
  filed : ∀ r ∈ s.catalog.segments.values, r.tier ≠ "" →
    ∃ rows, (r.segmentId, rows) ∈ s.files.entries ∧
      (s.catalog.Unretired r.segmentId → Indexed hash floatText s.catalog r.segmentId rows)
  retired : ∀ job ∈ s.jobs, ∀ id ∈ job.retired, ¬ s.catalog.Unretired id

theorem Complete.empty : Complete hash floatText .empty where
  keyed := ⟨Catalog.recorded_empty, by simp [Published.empty, Catalog.empty]⟩
  ordered := by simp [Published.empty, Catalog.empty, OrderedMap.values]
  filed := by simp [Published.empty, Catalog.empty, OrderedMap.values]
  retired := by simp [Published.empty]

theorem Complete.publish {s : Published} {catalog : Catalog} {retire : List Id}
    {segments : List Written} {checkpoint : Option Nat} (complete : Complete hash floatText s)
    (fresh : FreshSegments s.catalog retire segments)
    (published : s.catalog.publishInOneTransaction retire (segments.map Prod.fst)
      (locatorFor hash floatText segments) checkpoint = some catalog) {jobs : List Job}
    (named : ∀ job ∈ jobs, job ∈ s.jobs ∨ ∀ id ∈ job.retired, id ∈ retire) :
    Complete hash floatText ⟨catalog, withFiles s.files segments, jobs⟩ := by
  obtain ⟨distinct, unseen, moments⟩ := fresh
  have sound : ∀ x ∈ (locatorFor hash floatText segments).runs.entries,
      x.2.bucket = x.1 ∧ InI64 x.1 := sound_locatorFor fun w inside row there =>
    inI64_bucketOf (moments w inside row there).1 (moments w inside row there).2
  have generation := Catalog.publish_generation published
  have stores := fun e => @Catalog.Keyed.publish_stores _ _ _ _ _ _ complete.keyed sound published e
  -- A record after the publish is an old one, a retirement or a new segment.
  have records : ∀ r ∈ catalog.segments.values, r ∈ s.catalog.segments.values ∨
      (∃ id ∈ retire, r = .retired id (s.catalog.generation + 1)) ∨
      ∃ w ∈ segments, r = { w.1 with generation := s.catalog.generation + 1 } := by
    intro r inside
    obtain ⟨key, there⟩ := mem_values.mp inside
    rcases Catalog.publish_records published there with old | ⟨id, mem, same⟩ | ⟨m, mem, same⟩
    · exact .inl (mem_values.mpr ⟨key, old⟩)
    · exact .inr (.inl ⟨id, mem, congrArg Prod.snd same⟩)
    · obtain ⟨w, written, rfl⟩ := mem_map.mp mem
      exact .inr (.inr ⟨w, written, congrArg Prod.snd same⟩)
  have remain : ∀ r ∈ s.catalog.segments.values, r ∈ catalog.segments.values := by
    intro r inside
    obtain ⟨key, there⟩ := mem_values.mp inside
    exact mem_values.mpr ⟨key, complete.keyed.segments.publish_old published there⟩
  have bounded : ∀ r ∈ s.catalog.segments.values, r.generation ≤ s.catalog.generation :=
    fun r inside => complete.keyed.segments.generation_le inside
  have gone : ∀ id ∈ retire, ¬ catalog.Unretired id := by
    intro id inside live
    refine live _ (Catalog.publish_retired published inside fun m mem same => ?_) rfl rfl
    obtain ⟨w, written, rfl⟩ := mem_map.mp mem
    exact (unseen w written).1 (same ▸ inside)
  refine ⟨complete.keyed.published sound published, ?_, ?_, ?_⟩
  · intro r inside r' inside' same empty tier
    rcases records r inside with old | ⟨id, mem, rfl⟩ | ⟨w, mem, rfl⟩
    · rcases records r' inside' with old' | ⟨id, mem, rfl⟩ | ⟨w, mem, rfl⟩
      · exact complete.ordered r old r' old' same empty tier
      · exact absurd rfl tier
      · exact absurd same ((unseen w mem).2 r old)
    · rcases records r' inside' with old' | ⟨id', mem', rfl⟩ | ⟨w, mem', rfl⟩
      · exact Nat.lt_succ_of_le (bounded r' old')
      · exact absurd rfl tier
      · obtain rfl : id = w.1.segmentId := same
        exact absurd mem (unseen w mem').1
    · rcases records r' inside' with old' | ⟨id, mem', rfl⟩ | ⟨w', mem', rfl⟩
      · exact absurd same.symm ((unseen w mem).2 r' old')
      · exact absurd rfl tier
      · obtain rfl := inj_on_of_nodup_map distinct mem mem' same
        exact absurd empty tier
  · intro r inside tier
    rcases records r inside with old | ⟨id, mem, rfl⟩ | ⟨w, mem, rfl⟩
    · obtain ⟨rows, filed, indexed⟩ := complete.filed r old tier
      refine ⟨rows, mem_foldl_insert_old filed fun w mem same =>
        (unseen w mem).2 r old same.symm, fun live row there x values => ?_⟩
      refine (stores _).mpr (.inl (indexed (fun r' there' same => ?_) row there x values))
      exact live r' (remain r' there') same
    · exact absurd rfl tier
    · refine ⟨w.2, mem_foldl_insert_new mem fun w' mem' same => ?_,
        fun _ row there x values => ?_⟩
      · rw [inj_on_of_nodup_map distinct mem' mem same]
      · exact (stores _).mpr (.inr (holds_locatorFor.mpr ⟨w, mem, row, there, x, values, rfl⟩))
  · intro job inside id there
    rcases named job inside with old | retired
    · intro live
      exact complete.retired job old id there fun r mem same => live r (remain r mem) same
    · exact gone id (retired id there)

theorem Complete.step {s t : Published} {e : Tx} (complete : Complete hash floatText s)
    (unique : UniqueIds s e) (next : s.step hash floatText e = some t) : Complete hash floatText t := by
  cases e with
  | seals segments checkpoint =>
    obtain ⟨catalog, published, same⟩ := Option.bind_eq_some_iff.mp next
    cases same
    exact complete.publish unique published fun job inside => .inl inside
  | installs segments =>
    obtain ⟨catalog, published, same⟩ := Option.bind_eq_some_iff.mp next
    cases same
    exact complete.publish unique published fun job inside => .inl inside
  | swaps retire segments buckets =>
    obtain ⟨catalog, published, same⟩ := Option.bind_eq_some_iff.mp next
    cases same
    refine complete.publish unique published fun job inside => ?_
    rcases mem_append.mp inside with old | new
    · exact .inl old
    · obtain rfl := mem_singleton.mp new
      exact .inr fun id there => there
  | consolidates j =>
    simp only [Published.step] at next
    split at next
    · rename_i bucket buckets retired found
      obtain ⟨catalog, done, same⟩ := Option.bind_eq_some_iff.mp next
      cases same
      obtain ⟨keyed, ⟨runs, rfl⟩, stays, -⟩ := complete.keyed.consolidated done
      refine ⟨keyed, complete.ordered, ?_, ?_⟩
      · intro r inside tier
        obtain ⟨rows, filed, indexed⟩ := complete.filed r inside tier
        refine ⟨rows, filed, fun live row there x values =>
          stays _ (indexed live row there x values) fun dropped => ?_⟩
        exact complete.retired _ (mem_of_getElem? found) _ dropped live
      · intro job inside id there
        rcases mem_or_eq_of_mem_set inside with old | rfl
        · exact complete.retired job old id there
        · exact complete.retired _ (mem_of_getElem? found) id there
    · cases next

/-- After every transaction of seals, installs, swaps and their consolidations the
combined locator names each live segment under every column and value its rows are
indexed under. -/
theorem locator_complete {t : Published} (run : Reach (Published.step hash floatText) UniqueIds .empty t) :
    ∃ locator, t.catalog.locator = .ok locator ∧ ∀ m ∈ t.catalog.manifests,
      ∃ rows, t.files.get? m.segmentId = some rows ∧ ∀ row ∈ rows, ∀ x ∈ indexedValues floatText row,
          m.segmentId ∈ locator.candidates hash x.1 x.2 none := by
  have complete : Complete hash floatText t := Reach.invariant _ Complete.empty
    (fun _ _ _ held unique next => held.step unique next) run
  obtain ⟨locator, read, named⟩ := complete.keyed.locator_ok
  refine ⟨locator, read, fun m live => ?_⟩
  obtain ⟨record, tier, newest⟩ := Catalog.mem_manifests live
  obtain ⟨rows, filed, indexed⟩ := complete.filed m record tier
  have unretired : t.catalog.Unretired m.segmentId := by
    intro r inside same empty
    have later := complete.ordered r inside m record same empty tier
    have earlier := newest r inside same
    omega
  exact ⟨rows, OrderedMap.get?_eq_some.mpr filed, fun row there x values =>
    (named hash x.1 x.2 m.segmentId).mpr (indexed unretired row there x values)⟩

end

section
open Xxh3

/-- The manifest of a local segment, with the fields a lookup does not read left plain. -/
def plainManifest (segmentId : Id) : Manifest :=
  { Manifest.retired segmentId 0 with tier := "local" }

theorem locator_complete_after_swap : ∃ t : Published, Reach (Published.step xxh3 fun _ => "") UniqueIds .empty t ∧
      t.catalog.manifests.map Manifest.segmentId = [2, 3] ∧
      ∃ locator, t.catalog.locator = .ok locator ∧ ∀ m ∈ t.catalog.manifests,
        ∃ rows, t.files.get? m.segmentId = some rows ∧ ∀ row ∈ rows, ∀ x ∈ indexedValues (fun _ => "") row,
            m.segmentId ∈ locator.candidates xxh3 x.1 x.2 none := by
  obtain ⟨t, run, live⟩ := @Reach.of_exec_any _ _ (Published.step xxh3 fun _ => "") UniqueIds _
    .empty [.seals [(plainManifest 1, [EventRow.new 7 "event" "opened" 0])] 1,
      .swaps [1] [(plainManifest 3, [EventRow.new 7 "event" "opened" 0])] [0],
      .seals [(plainManifest 2, [EventRow.new 8 "event" "closed" 5])] 2, .consolidates 0]
    (fun t => t.catalog.manifests.map Manifest.segmentId = [2, 3]) (by decide +kernel)
  exact ⟨t, run, by simpa using live, locator_complete run⟩

end
end TallyOwl
