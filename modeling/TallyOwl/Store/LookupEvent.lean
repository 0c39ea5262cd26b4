import TallyOwl.Store.Segmented.Read

/-! A point lookup (`lookup_event`) over a store whose files need not all read. It drops the
segments that would not open, and so an event that only they hold looks like one that is not there. -/
namespace TallyOwl.LookupEvent
open Lib Format Locate Segmented List OrderedMap

inductive Fault where
  | closed (reason : String)
  | pages (error : FormatError)
  deriving DecidableEq

/-- A segment file: the rows it was written with, and what is wrong with it now. -/
structure File where
  rows : List EventRow
  fault : Option Fault
  deriving DecidableEq

structure Store where
  memory : MemoryView
  catalog : Catalog
  files : OrderedMap Id File

def messageOf : FormatError → String
  | .incomplete m | .damaged m | .unsupported m => m

def ofFormat : FormatError → StoreError
  | .damaged m | .incomplete m => .damaged m
  | .unsupported m => .invalidArgument m

def noSuchFile (segmentId : Id) : String :=
  s!"The stored file for {hex segmentId.bytes} could not be read: No such file or directory (os error 2)"

def Store.openSegment (s : Store) (segmentId : Id) : Except String File :=
  match s.files.get? segmentId with
  | none => .error (noSuchFile segmentId)
  | some file =>
      match file.fault with
      | some (.closed reason) => .error reason
      | _ => .ok file

def doesNotFit : StoreError := .unavailable "The stored index could not be written."

def opened : Except String File → Option File
  | .ok file => some file
  | .error _ => none

def refusal : Except String File → Option String
  | .ok _ => none
  | .error reason => some reason

/-- The wanted segments that open, and for each other one why it does not. -/
def Store.segmentsWhere (s : Store) (wanted : Manifest → Bool) : List (Id × File) × List String :=
  let manifests := s.catalog.manifests.filter wanted
  (manifests.filterMap fun m => (opened (s.openSegment m.segmentId)).map fun file => (m.segmentId, file),
    manifests.filterMap fun m => refusal (s.openSegment m.segmentId))

/-- `Segment::rows`. -/
def File.readRows (file : File) : Except StoreError (List EventRow) :=
  match file.fault with
  | some (.pages e) => .error (ofFormat e)
  | _ => .ok file.rows

def Store.cachedLocator (s : Store) : Except StoreError Locator :=
  match s.catalog.locator with
  | .ok locator => .ok locator
  | .error e => .error (.damaged ("A stored index run could not be read. " ++ messageOf e))

def Store.tombstones (s : Store) : List Tombstone := s.catalog.tombstones.values

/-- The event's rows in memory, less those that a published segment holds. -/
def Store.inMemory (s : Store) (eventId : Id) : List EventRow :=
  unpublished s.catalog.manifests (s.memory.kept fun row => row.eventId = eventId)

section
variable (hash : Bytes → UInt64) (floatText : UInt64 → String) (mayHold : File → String → Bytes → Bool)

def shown (tombstones : List Tombstone) (row : EventRow) : Option EventRow :=
  if hiddenBy floatText tombstones row then none else some row

def findEvent (tombstones : List Tombstone) (eventId : Id) :
    List (Id × File) → Except StoreError (Option EventRow)
  | [] => .ok none
  | (_, file) :: rest =>
      if mayHold file "event_id" eventId.bytes then
        match file.readRows with
        | .error e => .error e
        | .ok rows =>
            match rows.find? fun row => row.eventId = eventId with
            | some row => .ok (shown floatText tombstones row)
            | none => findEvent tombstones eventId rest
      else findEvent tombstones eventId rest

def Store.lookupEvent (s : Store) (eventId : Id) : Except StoreError (Option EventRow) :=
  match s.inMemory eventId with
  | row :: _ => .ok (shown floatText s.tombstones row)
  | [] =>
      match s.cachedLocator with
      | .error e => .error e
      | .ok locator =>
          let candidates := locator.candidates hash "event_id" eventId.bytes none
          let (segments, _) := s.segmentsWhere fun m => candidates = [] ∨ m.segmentId ∈ candidates
          findEvent floatText mayHold s.tombstones eventId segments

end

/-! What a lookup looks at, place by place, and which of the places ends it. -/

abbrev Place := Except StoreError (List EventRow)

structure Sight where
  memory : List EventRow
  segments : Except StoreError (List (Id × Place))

/-- A lookup does not go on past a place that fails or that has a row of the event. -/
def Ends (eventId : Id) : Place → Prop
  | .error _ => True
  | .ok rows => ∃ row ∈ rows, row.eventId = eventId

/-- The first of the places that ends the lookup: memory, the locator, the segments by their ids. -/
inductive Sight.EndsAt (sight : Sight) (eventId : Id) : Place → Prop
  | memory (held : sight.memory ≠ []) : EndsAt sight eventId (.ok sight.memory)
  | locator {e : StoreError} (clear : sight.memory = []) (fails : sight.segments = .error e) :
      EndsAt sight eventId (.error e)
  | segment {segments : List (Id × Place)} {x : Id × Place} (clear : sight.memory = [])
      (reads : sight.segments = .ok segments) (inside : x ∈ segments) (ends : Ends eventId x.2)
      (first : ∀ y ∈ segments, y.1 < x.1 → ¬ Ends eventId y.2) : EndsAt sight eventId x.2

section
variable (hash : Bytes → UInt64) (floatText : UInt64 → String) (mayHold : File → String → Bytes → Bool)

def Sight.Finds (tombstones : List Tombstone) (sight : Sight) (eventId : Id) : Prop :=
  ∃ rows row, sight.EndsAt eventId (.ok rows) ∧ rows.find? (fun row => row.eventId = eventId) = some row ∧
    hiddenBy floatText tombstones row = false

def Sight.Fails (sight : Sight) (eventId : Id) : Prop := ∃ e, sight.EndsAt eventId (.error e)

/-- The segments of a list that a lookup reads, with their pages. -/
def placesOf (eventId : Id) (segments : List (Id × File)) : List (Id × Place) :=
  (segments.filter fun x => mayHold x.2 "event_id" eventId.bytes).map fun x => (x.1, x.2.readRows)

/-- What a lookup reads under the candidates that the locator gave it. -/
def Store.reads (s : Store) (eventId : Id) (candidates : List Id) : List (Id × Place) :=
  placesOf mayHold eventId (s.segmentsWhere fun m => candidates = [] ∨ m.segmentId ∈ candidates).1

def Store.sight (s : Store) (eventId : Id) : Sight where
  memory := s.inMemory eventId
  segments :=
    match s.cachedLocator with
    | .error e => .error e
    | .ok locator =>
        .ok (s.reads mayHold eventId (locator.candidates hash "event_id" eventId.bytes none))

def settle (tombstones : List Tombstone) (eventId : Id) : Place → Except StoreError (Option EventRow)
  | .error e => .error e
  | .ok rows => .ok ((rows.find? fun row => row.eventId = eventId).bind (shown floatText tombstones))

end

section
variable {hash : Bytes → UInt64} {floatText : UInt64 → String} {mayHold : File → String → Bytes → Bool}
variable {s : Store} {eventId : Id} {tombstones : List Tombstone}

theorem not_ends_ok {rows : List EventRow} :
    ¬ Ends eventId (.ok rows) ↔ rows.find? (fun row => row.eventId = eventId) = none := by
  simp [Ends, find?_eq_none]

theorem findEvent_first {segments : List (Id × File)} (sorted : segments.Pairwise fun x y => x.1 < y.1) :
    (∃ x ∈ placesOf mayHold eventId segments, Ends eventId x.2 ∧
      (∀ y ∈ placesOf mayHold eventId segments, y.1 < x.1 → ¬ Ends eventId y.2) ∧
      findEvent floatText mayHold tombstones eventId segments = settle floatText tombstones eventId x.2) ∨
    (∀ x ∈ placesOf mayHold eventId segments, ¬ Ends eventId x.2) ∧
      findEvent floatText mayHold tombstones eventId segments = .ok none := by
  induction segments with
  | nil => exact .inr ⟨by simp [placesOf], rfl⟩
  | cons head rest ih =>
    obtain ⟨id, file⟩ := head
    obtain ⟨above, sorted⟩ := pairwise_cons.mp sorted
    by_cases read : mayHold file "event_id" eventId.bytes = true
    · have places : placesOf mayHold eventId ((id, file) :: rest) =
          (id, file.readRows) :: placesOf mayHold eventId rest := by
        simp [placesOf, read]
      have walk : findEvent floatText mayHold tombstones eventId ((id, file) :: rest) =
          match file.readRows with
          | .error e => .error e
          | .ok rows =>
            match rows.find? fun row => row.eventId = eventId with
            | some row => .ok (shown floatText tombstones row)
            | none => findEvent floatText mayHold tombstones eventId rest := if_pos read
      have later : ∀ y ∈ placesOf mayHold eventId rest, id < y.1 := by
        intro y inside
        obtain ⟨x, there, rfl⟩ := mem_map.mp inside
        exact above x (List.mem_filter.mp there).1
      rw [places, walk]
      have here : Ends eventId file.readRows → ∀ y ∈ (id, file.readRows) :: placesOf mayHold eventId rest,
          y.1 < id → ¬ Ends eventId y.2 := by
        intro _ y inside less
        rcases mem_cons.mp inside with rfl | inside
        · exact absurd less (lt_irrefl _)
        · exact absurd (later y inside) (lt_asymm less)
      cases pages : file.readRows with
      | error e =>
        rw [pages] at here
        exact .inl ⟨_, mem_cons_self, trivial, here trivial, rfl⟩
      | ok rows =>
        rw [pages] at here
        cases found : rows.find? fun row => row.eventId = eventId with
        | some row =>
          have ends : Ends eventId (.ok rows) := by
            by_contra none
            rw [not_ends_ok.mp none] at found
            cases found
          refine .inl ⟨_, mem_cons_self, ends, here ends, ?_⟩
          simp only [settle, found, Option.bind_some]
        | none =>
          have clear := not_ends_ok.mpr found
          simp only [found]
          rcases ih sorted with ⟨x, inside, ends, first, same⟩ | ⟨none, same⟩
          · refine .inl ⟨x, mem_cons_of_mem _ inside, ends, fun y there less => ?_, same⟩
            rcases mem_cons.mp there with rfl | there
            · exact clear
            · exact first y there less
          · refine .inr ⟨fun y there => ?_, same⟩
            rcases mem_cons.mp there with rfl | there
            · exact clear
            · exact none y there
    · have places : placesOf mayHold eventId ((id, file) :: rest) = placesOf mayHold eventId rest := by
        simp [placesOf, read]
      have walk : findEvent floatText mayHold tombstones eventId ((id, file) :: rest) =
          findEvent floatText mayHold tombstones eventId rest := if_neg read
      rw [places, walk]
      exact ih sorted

theorem mem_segmentsWhere {wanted : Manifest → Bool} {x : Id × File} : x ∈ (s.segmentsWhere wanted).1 ↔
    ∃ m ∈ s.catalog.manifests, wanted m = true ∧ m.segmentId = x.1 ∧ opened (s.openSegment x.1) = some x.2 := by
  simp only [Store.segmentsWhere, mem_filterMap, List.mem_filter, Option.map_eq_some_iff]
  constructor
  · rintro ⟨m, ⟨live, kept⟩, file, opens, rfl⟩
    exact ⟨m, live, kept, rfl, opens⟩
  · rintro ⟨m, live, kept, same, opens⟩
    rw [← same] at opens
    exact ⟨m, ⟨live, kept⟩, x.2, opens, by rw [same]⟩

theorem mem_placesOf {segments : List (Id × File)} {x : Id × Place} : x ∈ placesOf mayHold eventId segments ↔
    ∃ y ∈ segments, mayHold y.2 "event_id" eventId.bytes = true ∧ (y.1, y.2.readRows) = x := by
  simp [placesOf, List.mem_filter, and_assoc]

theorem get?_of_opened {id : Id} {file : File} (opens : opened (s.openSegment id) = some file) :
    s.files.get? id = some file := by
  unfold Store.openSegment at opens
  cases found : s.files.get? id with
  | none => simp [found, opened] at opens
  | some held =>
    simp only [found] at opens
    split at opens
    · cases opens
    · exact opens

theorem File.rows_of_readRows {file : File} {rows : List EventRow} (reads : file.readRows = .ok rows) :
    file.rows = rows := by
  unfold File.readRows at reads
  split at reads
  · cases reads
  · exact Except.ok.inj reads

theorem pairwise_segmentsWhere (wanted : Manifest → Bool) :
    (s.segmentsWhere wanted).1.Pairwise fun x y => x.1 < y.1 := by
  refine pairwise_filterMap.mpr ((s.catalog.pairwise_manifests.sublist filter_sublist).imp ?_)
  intro m n less x first y second
  obtain ⟨_, -, rfl⟩ := Option.map_eq_some_iff.mp first
  obtain ⟨_, -, rfl⟩ := Option.map_eq_some_iff.mp second
  exact less

theorem pairwise_reads (candidates : List Id) : (s.reads mayHold eventId candidates).Pairwise fun x y => x.1 < y.1 :=
  pairwise_map.mpr ((pairwise_segmentsWhere _).sublist filter_sublist)

theorem Sight.endsAt_congr {sight other : Sight} (memory : sight.memory = other.memory)
    {segments others : List (Id × Place)} (reads : sight.segments = .ok segments)
    (reads' : other.segments = .ok others) (same : ∀ x, x ∈ segments ↔ x ∈ others) {p : Place} :
    sight.EndsAt eventId p ↔ other.EndsAt eventId p := by
  constructor
  · rintro (held | ⟨clear, fails⟩ | ⟨clear, found, inside, ends, first⟩)
    · rw [memory] at held ⊢
      exact .memory held
    · cases reads.symm.trans fails
    · obtain rfl := Except.ok.inj (reads.symm.trans found)
      exact .segment (memory ▸ clear) reads' ((same _).mp inside) ends fun y there =>
        first y ((same y).mpr there)
  · rintro (held | ⟨clear, fails⟩ | ⟨clear, found, inside, ends, first⟩)
    · rw [← memory] at held ⊢
      exact .memory held
    · cases reads'.symm.trans fails
    · obtain rfl := Except.ok.inj (reads'.symm.trans found)
      exact .segment (memory ▸ clear) reads ((same _).mpr inside) ends fun y there =>
        first y ((same y).mp there)

theorem endsAt_unique {p q : Place} (one : (s.sight hash mayHold eventId).EndsAt eventId p)
    (other : (s.sight hash mayHold eventId).EndsAt eventId q) : p = q := by
  have distinct : ∀ segments, (s.sight hash mayHold eventId).segments = .ok segments →
      segments.Pairwise fun x y => x.1 < y.1 := by
    intro segments reads
    unfold Store.sight at reads
    split at reads
    · cases reads
    · cases reads
      exact pairwise_reads _
  cases one with
  | memory held =>
    cases other with
    | memory => rfl
    | locator clear => exact absurd clear held
    | segment clear => exact absurd clear held
  | locator clear fails =>
    cases other with
    | memory held => exact absurd clear held
    | locator _ fails' => rw [Except.error.inj (fails.symm.trans fails')]
    | segment _ reads => cases fails.symm.trans reads
  | @segment segments x clear reads inside ends first =>
    cases other with
    | memory held => exact absurd clear held
    | locator _ fails => cases reads.symm.trans fails
    | @segment segments' y _ reads' inside' ends' first' =>
      obtain rfl := Except.ok.inj (reads.symm.trans reads')
      rcases lt_trichotomy x.1 y.1 with less | same | less
      · exact absurd ends (first' x inside less)
      · have keys : (segments.map Prod.fst).Nodup :=
          pairwise_map.mpr ((distinct segments reads).imp fun less => less.ne)
        rw [inj_on_of_nodup_map keys inside inside' same]
      · exact absurd ends' (first y inside' less)

theorem eventId_of_inMemory {row : EventRow} (inside : row ∈ s.inMemory eventId) : row.eventId = eventId := by
  rw [Store.inMemory, unpublished_kept] at inside
  simpa using (List.mem_filter.mp inside).2

theorem lookupEvent_cases : (∃ p, (s.sight hash mayHold eventId).EndsAt eventId p ∧
      s.lookupEvent hash floatText mayHold eventId = settle floatText s.tombstones eventId p) ∨
    (∀ p, ¬ (s.sight hash mayHold eventId).EndsAt eventId p) ∧
      s.lookupEvent hash floatText mayHold eventId = .ok none := by
  set sight := s.sight hash mayHold eventId with seen
  cases memory : s.inMemory eventId with
  | cons row rest =>
    have held : sight.memory = row :: rest := memory
    have own : row.eventId = eventId := eventId_of_inMemory (memory ▸ mem_cons_self)
    have ends : sight.EndsAt eventId (.ok sight.memory) := .memory (by rw [held]; exact cons_ne_nil _ _)
    refine .inl ⟨_, ends, ?_⟩
    simp [Store.lookupEvent, memory, held, settle, own]
  | nil =>
    have clear : sight.memory = [] := memory
    cases locator : s.cachedLocator with
    | error e =>
      have fails : sight.segments = .error e := by simp [seen, Store.sight, locator]
      exact .inl ⟨_, .locator clear fails, by simp [Store.lookupEvent, memory, locator, settle]⟩
    | ok l =>
      set candidates := l.candidates hash "event_id" eventId.bytes none with named
      have reads : sight.segments = .ok (s.reads mayHold eventId candidates) := by
        simp [seen, Store.sight, locator, named]
      have walk : s.lookupEvent hash floatText mayHold eventId = findEvent floatText mayHold s.tombstones
          eventId (s.segmentsWhere fun m => candidates = [] ∨ m.segmentId ∈ candidates).1 := by
        simp [Store.lookupEvent, memory, locator, named]
      rw [walk]
      rcases @findEvent_first floatText mayHold eventId s.tombstones _ (pairwise_segmentsWhere _) with
        ⟨x, inside, ends, first, same⟩ | ⟨none, same⟩
      · exact .inl ⟨x.2, .segment clear reads inside ends first, same⟩
      · refine .inr ⟨?_, same⟩
        rintro p (held | ⟨_, fails⟩ | ⟨_, reads', inside, ends, -⟩)
        · exact held clear
        · cases reads.symm.trans fails
        · obtain rfl := Except.ok.inj (reads.symm.trans reads')
          exact none _ inside ends

theorem found_of_endsAt {rows : List EventRow} (there : (s.sight hash mayHold eventId).EndsAt eventId (.ok rows)) :
    ∃ row, rows.find? (fun row => row.eventId = eventId) = some row := by
  have ends : Ends eventId (.ok rows) := by
    generalize place : (Except.ok rows : Place) = p at there
    cases there with
    | memory held =>
      obtain ⟨row, inside⟩ := exists_mem_of_ne_nil _ held
      exact ⟨row, inside, eventId_of_inMemory inside⟩
    | locator => trivial
    | segment _ _ _ ends => exact ends
  by_contra none
  exact not_ends_ok.mpr (Option.eq_none_iff_forall_ne_some.mpr fun row found => none ⟨row, found⟩) ends

theorem lookupEvent_outcome : ((s.sight hash mayHold eventId).Fails eventId ∧
      ¬ (s.sight hash mayHold eventId).Finds floatText s.tombstones eventId ∧
      ∃ e, s.lookupEvent hash floatText mayHold eventId = .error e) ∨ (¬ (s.sight hash mayHold eventId).Fails eventId ∧
      (s.sight hash mayHold eventId).Finds floatText s.tombstones eventId ∧
      ∃ row, s.lookupEvent hash floatText mayHold eventId = .ok (some row)) ∨
    ¬ (s.sight hash mayHold eventId).Fails eventId ∧
      ¬ (s.sight hash mayHold eventId).Finds floatText s.tombstones eventId ∧
      s.lookupEvent hash floatText mayHold eventId = .ok none := by
  have cases := @lookupEvent_cases hash floatText mayHold s eventId
  set sight := s.sight hash mayHold eventId
  rcases cases with ⟨p, ends, same⟩ | ⟨none, same⟩
  · cases p with
    | error e =>
      refine .inl ⟨⟨e, ends⟩, ?_, e, same⟩
      rintro ⟨rows, _, other, -⟩
      cases endsAt_unique ends other
    | ok rows =>
      have unfailing : ¬ sight.Fails eventId := by
        rintro ⟨e, other⟩
        cases endsAt_unique ends other
      obtain ⟨row, found⟩ := found_of_endsAt ends
      cases hidden : hiddenBy floatText s.tombstones row with
      | false =>
        refine .inr (.inl ⟨unfailing, ⟨rows, row, ends, found, hidden⟩, row, ?_⟩)
        simp only [same, settle, found, Option.bind_some, shown, hidden, Bool.false_eq_true, if_false]
      | true =>
        refine .inr (.inr ⟨unfailing, ?_, ?_⟩)
        · rintro ⟨rows', row', other, found', visible⟩
          obtain rfl := Except.ok.inj (endsAt_unique ends other)
          obtain rfl := Option.some.inj (found.symm.trans found')
          rw [hidden] at visible
          cases visible
        · simp only [same, settle, found, Option.bind_some, shown, hidden, if_true]
  · refine .inr (.inr ⟨?_, ?_, same⟩)
    · rintro ⟨e, ends⟩
      exact none _ ends
    · rintro ⟨rows, _, ends, -⟩
      exact none _ ends

theorem lookupEvent_eq_none : s.lookupEvent hash floatText mayHold eventId = .ok none ↔
    ¬ (s.sight hash mayHold eventId).Fails eventId ∧
      ¬ (s.sight hash mayHold eventId).Finds floatText s.tombstones eventId := by
  rcases @lookupEvent_outcome hash floatText mayHold s eventId with
    ⟨fails, -, e, same⟩ | ⟨-, finds, row, same⟩ | ⟨clear, unfound, same⟩
  · simp [same, fails]
  · simp [same, finds]
  · simp [same, clear, unfound]

end

/-! Whether a lookup that answers none may be believed. -/

def Store.rowsOf (s : Store) (m : Manifest) : List EventRow :=
  ((s.files.get? m.segmentId).map File.rows).getD []

/-- Every row in memory or in a live segment, whether it can be read now or not. -/
def Store.held (s : Store) : List EventRow :=
  s.memory.openRows ++ s.memory.sealing.flatMap Prod.snd ++ s.catalog.manifests.flatMap s.rowsOf

def Store.Absent (floatText : UInt64 → String) (s : Store) (eventId : Id) : Prop :=
  ∀ row ∈ s.held, row.eventId = eventId → hiddenBy floatText s.tombstones row = true

def opened7 : EventRow := EventRow.new 7 "event" "opened" 0

def oneLost : Store where
  memory := ⟨[], []⟩
  catalog := (Catalog.empty.publishWithLocator [plainManifest 5]
    (locatorFor Xxh3.xxh3 (fun _ => "") [(plainManifest 5, [opened7])])).getD .empty
  files := OrderedMap.insert ∅ 5 ⟨[opened7], some (.closed (noSuchFile 5))⟩

end TallyOwl.LookupEvent
