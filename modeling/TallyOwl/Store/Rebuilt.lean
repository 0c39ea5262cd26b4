import TallyOwl.Store.Search

/-! A store whose catalog was lost and rebuilt from its segment files (`snapshot.rs`). A rebuild
publishes the segments without a run of the locator, and a seal stores runs for its own. -/
namespace TallyOwl.Search
open Lib Format Locate

/-- A store that was rebuilt, as its commits and seals leave it one after another. -/
structure Rebuilt where
  catalog : Catalog
  files : OrderedMap Id (List EventRow)
  openRows : List EventRow
  sealedSince : List Written

def headerManifest (m : Manifest) : Manifest := { m with generation := 0, tier := "local" }

/-- Publish what a scan of the files found, in a catalog that starts empty, and put back the
predicates that the erasure ledger has. -/
def rebuild (found : List Written) (tombstones : OrderedMap (ℕ ×ₗ Id) Tombstone) : Option Rebuilt := do
  let catalog ← Catalog.empty.rebuildFromManifests (found.map fun w => headerManifest w.1)
  some ⟨{ catalog with tombstones := tombstones }, withFiles ∅ found, [], []⟩

inductive Event where
  | commit (rows : List EventRow)
  | seals (segments : List Written) (checkpoint : Nat)

section
variable (hash : Bytes → UInt64) (floatText : UInt64 → String) (mayHold : List EventRow → String → Bytes → Bool)

/-- A commit extends the open buffer, and a seal drains it into segments. -/
def Rebuilt.step (s : Rebuilt) : Event → Option Rebuilt
  | .commit rows => some { s with openRows := s.openRows ++ rows }
  | .seals segments checkpoint =>
      if (segments.flatMap Prod.snd).Perm s.openRows then do
        let catalog ← s.catalog.publishSealed (segments.map Prod.fst)
          (locatorFor hash floatText segments) checkpoint
        some ⟨catalog, withFiles s.files segments, [], s.sealedSince ++ segments⟩
      else none

/-- Sealed segments get ids of their own, and every moment is at least one bucket above the
lowest `i64`. -/
def OwnIds (s : Rebuilt) : Event → Prop
  | .commit _ => True
  | .seals segments _ => FreshSegments s.catalog [] segments

instance (s : Rebuilt) (e : Event) : Decidable (OwnIds s e) :=
  match e with
  | .commit _ => inferInstanceAs (Decidable True)
  | .seals segments _ => inferInstanceAs (Decidable (FreshSegments s.catalog [] segments))

def Rebuilt.rowsOf (s : Rebuilt) (id : Id) : List EventRow := (s.files.get? id).getD []

def Rebuilt.stored (s : Rebuilt) : List EventRow :=
  s.openRows ++ s.catalog.manifests.flatMap fun m => s.rowsOf m.segmentId

/-- `lookup_correlated`. -/
def Rebuilt.lookupCorrelated (s : Rebuilt) (column : String) (value : Bytes) :
    Except FormatError (List EventRow) := do
  let memory := s.openRows.filter fun row => rowCarries floatText row column value
  let locator ← s.catalog.locator
  let candidates := locator.candidates hash column value none
  .ok (visible floatText s.catalog.tombstones.values
    (memory ++ found floatText mayHold column value candidates s.catalog.manifests s.rowsOf))

/-- One of the rows is indexed under the fingerprints of the column and the value. -/
def Fingerprinted (rows : List EventRow) (column : String) (value : Bytes) : Prop :=
  ∃ row ∈ rows, ∃ x ∈ indexedValues floatText row,
    Locator.fieldOf hash x.1 = Locator.fieldOf hash column ∧ hash x.2 = hash value

instance (rows : List EventRow) (column : String) (value : Bytes) :
    Decidable (Fingerprinted hash floatText rows column value) :=
  inferInstanceAs (Decidable (∃ row ∈ rows, _))

section
variable {hash floatText mayHold}

/-- The stored runs hold what was sealed since the rebuild, and nothing else. -/
structure Runs (hash : Bytes → UInt64) (floatText : UInt64 → String) (s : Rebuilt) : Prop where
  keyed : s.catalog.Keyed
  stores : ∀ e, s.catalog.StoresEntry e ↔ ∃ w ∈ s.sealedSince, ∃ row ∈ w.2,
    ∃ x ∈ indexedValues floatText row, e = Locator.entryOf hash x.1 x.2 w.1.segmentId

theorem runs_rebuild {files : List Written} {tombstones : OrderedMap (ℕ ×ₗ Id) Tombstone} {s : Rebuilt}
    (rebuilt : rebuild files tombstones = some s) : Runs hash floatText s := by
  unfold rebuild at rebuilt
  obtain ⟨catalog, published, same⟩ := Option.bind_eq_some_iff.mp rebuilt
  cases same
  have bare : ({ Catalog.empty with segments := ∅ } : Catalog).Keyed :=
    ⟨Catalog.recorded_empty, by simp [Catalog.empty]⟩
  have quiet : ∀ x ∈ Locator.new.runs.entries, x.2.bucket = x.1 ∧ InI64 x.1 := by simp [Locator.new]
  rw [Catalog.rebuildFromManifests, Catalog.publish, Catalog.publishWithLocator] at published
  have keyed : catalog.Keyed := bare.published quiet published
  refine ⟨⟨keyed.segments, keyed.runs⟩, fun e => ?_⟩
  have stores := @Catalog.Keyed.publish_stores _ _ _ _ _ _ bare quiet published e
  have nothing : ¬ catalog.StoresEntry e := by
    rw [stores]
    rintro (⟨x, inside, -⟩ | ⟨x, inside, -⟩)
    · simp [Catalog.empty] at inside
    · simp [Locator.new] at inside
  exact iff_of_false nothing (by simp)

theorem runs_step {s t : Rebuilt} {e : Event} (runs : Runs hash floatText s) (own : OwnIds s e)
    (next : s.step hash floatText e = some t) : Runs hash floatText t := by
  cases e with
  | commit rows =>
    cases next
    exact ⟨runs.keyed, runs.stores⟩
  | seals segments checkpoint =>
    simp only [Rebuilt.step, Option.ite_none_right_eq_some] at next
    obtain ⟨-, next⟩ := next
    obtain ⟨catalog, published, same⟩ := Option.bind_eq_some_iff.mp next
    cases same
    have sound : ∀ x ∈ (locatorFor hash floatText segments).runs.entries, x.2.bucket = x.1 ∧ InI64 x.1 :=
      sound_locatorFor fun w inside row there =>
        inI64_bucketOf (own.2.2 w inside row there).1 (own.2.2 w inside row there).2
    refine ⟨runs.keyed.published sound published, fun e => ?_⟩
    rw [runs.keyed.publish_stores sound published, runs.stores, holds_locatorFor]
    simp only [List.mem_append, or_and_right, exists_or]

theorem Runs.candidates {s : Rebuilt} (runs : Runs hash floatText s) (column : String) (value : Bytes) :
    ∃ locator, s.catalog.locator = .ok locator ∧ ∀ id, id ∈ locator.candidates hash column value none ↔
      ∃ w ∈ s.sealedSince, w.1.segmentId = id ∧ Fingerprinted hash floatText w.2 column value := by
  obtain ⟨locator, read, named⟩ := runs.keyed.locator_ok
  refine ⟨locator, read, fun id => ?_⟩
  rw [named, runs.stores]
  simp only [Locator.entryOf, Entry.mk.injEq, Fingerprinted]
  constructor
  · rintro ⟨w, inside, row, there, x, indexed, field, hashed, same⟩
    exact ⟨w, inside, same.symm, row, there, x, indexed, field.symm, hashed.symm⟩
  · rintro ⟨w, inside, same, row, there, x, indexed, field, hashed⟩
    exact ⟨w, inside, row, there, x, indexed, field.symm, hashed.symm, same.symm⟩

end

/-- After a rebuild and any commits and seals, a lookup returns every visible row that carries the
value exactly where each segment that has one is read: its own index does not rule it out, and
nothing sealed since the rebuild is indexed under the value but by segments of this kind. -/
theorem rebuilt_lookup_in_full (files : List Written) (tombstones : OrderedMap (ℕ ×ₗ Id) Tombstone)
    (start s : Rebuilt) (rebuilt : rebuild files tombstones = some start)
    (run : Reach (Rebuilt.step hash floatText) OwnIds start s) (column : String) (value : Bytes) :
    ∃ answer, s.lookupCorrelated hash floatText mayHold column value = .ok answer ∧
      (answer.Perm (s.stored.filter (asked floatText column value s.catalog.tombstones.values)) ↔
        ∀ m ∈ s.catalog.manifests, (∃ row ∈ s.rowsOf m.segmentId,
            asked floatText column value s.catalog.tombstones.values row = true) →
          ((∀ w ∈ s.sealedSince, ¬ Fingerprinted hash floatText w.2 column value) ∨
            ∃ w ∈ s.sealedSince, w.1.segmentId = m.segmentId ∧ Fingerprinted hash floatText w.2 column value) ∧
          mayHold (s.rowsOf m.segmentId) column value = true) := by
  have runs : Runs hash floatText s := Reach.invariant _ (runs_rebuild rebuilt)
    (fun _ _ _ held own next => runs_step held own next) run
  obtain ⟨locator, read, named⟩ := runs.candidates column value
  refine ⟨_, by rw [Rebuilt.lookupCorrelated, read]; rfl, visible_found_iff.trans ?_⟩
  have none : locator.candidates hash column value none = [] ↔
      ∀ w ∈ s.sealedSince, ¬ Fingerprinted hash floatText w.2 column value := by
    rw [List.eq_nil_iff_forall_not_mem]
    simp only [named, not_exists, not_and]
    exact ⟨fun empty w inside => empty _ w inside rfl, fun empty _ w inside _ => empty w inside⟩
  refine forall₂_congr fun m _ => imp_congr_right fun _ => and_congr_left fun _ => ?_
  rw [none, named]

end

section
open Xxh3

def noIndex (_ : List EventRow) (_ : String) (_ : Bytes) : Bool := true

def opened (eventId : Id) (session : String) : EventRow :=
  { EventRow.new eventId "event" "opened" 0 with sessionId := some session }

/-- Two files were there, and what is sealed later has another session. -/
theorem rebuilt_lookup_in_full_apart : ∃ start s : Rebuilt,
    rebuild [(plainManifest 1, [opened 7 "a"]), (plainManifest 2, [opened 8 "a"])] ∅ = some start ∧
      s.catalog.manifests.length = 3 ∧ ∃ answer,
        s.lookupCorrelated xxh3 (fun _ => "") noIndex "session_id" (textBytes "a") = .ok answer ∧
        (answer.Perm (s.stored.filter (asked (fun _ => "") "session_id" (textBytes "a") s.catalog.tombstones.values)) ↔
          ∀ m ∈ s.catalog.manifests, (∃ row ∈ s.rowsOf m.segmentId,
              asked (fun _ => "") "session_id" (textBytes "a") s.catalog.tombstones.values row = true) →
            ((∀ w ∈ s.sealedSince, ¬ Fingerprinted xxh3 (fun _ => "") w.2 "session_id" (textBytes "a")) ∨
              ∃ w ∈ s.sealedSince, w.1.segmentId = m.segmentId ∧
                Fingerprinted xxh3 (fun _ => "") w.2 "session_id" (textBytes "a")) ∧
            noIndex (s.rowsOf m.segmentId) "session_id" (textBytes "a") = true) := by
  obtain ⟨start, rebuilt, ran⟩ : ∃ start, rebuild
      [(plainManifest 1, [opened 7 "a"]), (plainManifest 2, [opened 8 "a"])] ∅ = some start ∧
        (exec (guarded (Rebuilt.step xxh3 fun _ => "") OwnIds) start [.commit [opened 9 "b"],
          .seals [(plainManifest 3, [opened 9 "b"])] 1]).any
            (fun s => s.catalog.manifests.length = 3) = true := by
    refine ⟨_, rfl, ?_⟩
    decide +kernel
  obtain ⟨s, run, live⟩ := Reach.of_exec_any ran
  exact ⟨start, s, rebuilt, of_decide_eq_true live, rebuilt_lookup_in_full xxh3 (fun _ => "") noIndex _ _
    start s rebuilt run "session_id" (textBytes "a")⟩

/-- A session that goes on after the rebuild: the lookup reads the new segment and leaves out
what the rebuilt one has. -/
theorem rebuilt_lookup_falls_short : ∃ start s : Rebuilt, rebuild [(plainManifest 1, [opened 7 "a"])] ∅ = some start ∧
      Reach (Rebuilt.step xxh3 fun _ => "") OwnIds start s ∧
      (s.lookupCorrelated xxh3 (fun _ => "") noIndex "session_id" (textBytes "a")).toOption.map
          (·.map EventRow.eventId) = some [8] ∧ (s.stored.filter (asked (fun _ => "") "session_id" (textBytes "a")
        s.catalog.tombstones.values)).map EventRow.eventId = [7, 8] := by
  obtain ⟨start, rebuilt, ran⟩ : ∃ start, rebuild [(plainManifest 1, [opened 7 "a"])] ∅ = some start ∧
      (exec (guarded (Rebuilt.step xxh3 fun _ => "") OwnIds) start [.commit [opened 8 "a"],
        .seals [(plainManifest 2, [opened 8 "a"])] 1]).any (fun s =>
          (s.lookupCorrelated xxh3 (fun _ => "") noIndex "session_id" (textBytes "a")).toOption.map
            (·.map EventRow.eventId) = some [8] ∧
          (s.stored.filter (asked (fun _ => "") "session_id" (textBytes "a")
            s.catalog.tombstones.values)).map EventRow.eventId = [7, 8]) = true := by
    refine ⟨_, rfl, ?_⟩
    decide +kernel
  obtain ⟨s, run, short⟩ := Reach.of_exec_any ran
  obtain ⟨answered, all⟩ := of_decide_eq_true short
  exact ⟨start, s, rebuilt, run, answered, all⟩

end

end TallyOwl.Search
