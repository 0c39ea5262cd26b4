import TallyOwl.Store.Rebuilt
import TallyOwl.Store.Segmented.Read
import TallyOwl.Store.Swapped

/-! An exact lookup (`lookup_correlated`, `lookup_event`) while compactions swap segments. It looks
at memory, at the locator and at the manifests one after another, and then reads the segments; a
swap may commit between any two of these. -/
namespace TallyOwl.Race
open Lib Format Locate Segmented Search List

inductive Call where
  | correlated (column : String) (value : Bytes)
  | event (eventId : Id)

inductive Answer where
  | scanned (rows : List EventRow) (incomplete : Bool)
  | event (row : Option EventRow)
  deriving DecidableEq

inductive Stage where
  | begun
  | viewed (view : MemoryView)
  | remembered (rows : List EventRow)
  | asking (rows : List EventRow) (generation : ℕ)
  | pruned (rows : List EventRow) (candidates : List Id)
  | reading (rows : List EventRow) (left : List Manifest) (incomplete : Bool)
  | answered (result : Except FormatError Answer)

structure Lookup where
  call : Call
  tombstones : List Tombstone
  stage : Stage

/-- The store, what its memory holds, the locator it keeps with the generation it is kept under,
and the lookup that is going on. -/
structure Racing where
  store : Published
  memory : MemoryView
  cache : Option (ℕ × Locator)
  logUnreadable : Bool
  lookup : Option Lookup

def Racing.start (logUnreadable : Bool) : Racing := ⟨.empty, ⟨[], []⟩, none, logUnreadable, none⟩

def Call.column : Call → String
  | .correlated column _ => column
  | .event _ => "event_id"

def Call.value : Call → Bytes
  | .correlated _ value => value
  | .event eventId => eventId.bytes

inductive Event where
  | tx (e : Tx)
  | memory (view : MemoryView)
  | predicates (tombstones : OrderedMap (ℕ ×ₗ Id) Tombstone)
  | fill (generation : ℕ)
  | invalidate
  | call (call : Call)
  | look
  | returns

section
variable (hash : Bytes → UInt64) (floatText : UInt64 → String) (mayHold : List EventRow → String → Bytes → Bool)

def Call.keeps : Call → EventRow → Bool
  | .correlated column value, row => rowCarries floatText row column value
  | .event eventId, row => row.eventId = eventId

/-- What a lookup looks for: a visible row that carries the value. -/
def Lookup.asked (l : Lookup) (row : EventRow) : Bool :=
  l.call.keeps floatText row && !hiddenBy floatText l.tombstones row

/-- The first row that `lookup_event` finds decides. -/
def Lookup.settle (l : Lookup) (rows : List EventRow) (onward : Stage) : Stage :=
  match l.call, rows with
  | .event _, row :: _ =>
      .answered (.ok (.event (if hiddenBy floatText l.tombstones row then none else some row)))
  | _, _ => onward

def Lookup.answer (l : Lookup) (rows : List EventRow) (incomplete : Bool) : Answer :=
  match l.call with
  | .correlated _ _ => .scanned (visible floatText l.tombstones rows) incomplete
  | .event _ => .event none

/-- `cached_locator`, for a reader that has read the generation. -/
def Racing.cachedLocator (s : Racing) (generation : ℕ) : Except FormatError Locator :=
  match s.cache with
  | some (held, locator) => if held = generation then .ok locator else s.store.catalog.locator
  | none => s.store.catalog.locator

def Racing.goes (s : Racing) (l : Lookup) (stage : Stage) : Racing :=
  { s with lookup := some { l with stage := stage } }

def Racing.look (s : Racing) (l : Lookup) : Option Racing :=
  match l.stage with
  | .begun => some (s.goes l (.viewed (s.memory.kept (l.call.keeps floatText))))
  | .viewed view =>
      let rows := unpublished s.store.catalog.manifests view
      some (s.goes l (l.settle floatText rows (.remembered rows)))
  | .remembered rows => some (s.goes l (.asking rows s.store.catalog.generation))
  | .asking rows generation =>
      match s.cachedLocator generation with
      | .error e => some (s.goes l (.answered (.error e)))
      | .ok locator =>
          let candidates := locator.candidates hash l.call.column l.call.value none
          some ({ s with cache := some (generation, locator) }.goes l (.pruned rows candidates))
  | .pruned rows candidates =>
      let left := s.store.catalog.manifests.filter fun m => candidates = [] ∨ m.segmentId ∈ candidates
      some (s.goes l (.reading rows left s.logUnreadable))
  | .reading rows [] incomplete =>
      some (s.goes l (.answered (.ok (l.answer floatText rows incomplete))))
  | .reading rows (m :: left) incomplete =>
      match s.store.files.get? m.segmentId with
      | none => some (s.goes l (.reading rows left true))
      | some file =>
          if mayHold file l.call.column l.call.value then
            let rows := rows ++ file.filter (l.call.keeps floatText)
            some (s.goes l (l.settle floatText rows (.reading rows left incomplete)))
          else some (s.goes l (.reading rows left incomplete))
  | .answered _ => none

/-- A swap takes the turn that a seal holds until it has dropped its batch. -/
def Racing.turnFree (s : Racing) : Tx → Bool
  | .swaps _ _ _ => s.memory.sealing.isEmpty
  | _ => true

def Racing.step (s : Racing) : Event → Option Racing
  | .tx e =>
      if s.turnFree e then do
        let store ← s.store.step hash floatText e
        some { s with store := store }
      else none
  | .memory view => some { s with memory := view }
  | .predicates tombstones =>
      some { s with store := { s.store with catalog := { s.store.catalog with tombstones := tombstones } } }
  | .fill generation =>
      match s.cachedLocator generation with
      | .error _ => some s
      | .ok locator => some { s with cache := some (generation, locator) }
  | .invalidate => some { s with cache := none }
  | .call call =>
      match s.lookup with
      | none => some { s with lookup := some ⟨call, s.store.catalog.tombstones.values, .begun⟩ }
      | some _ => none
  | .look => s.lookup.bind fun l => s.look hash floatText mayHold l
  | .returns =>
      match s.lookup with
      | some ⟨_, _, .answered _⟩ => some { s with lookup := none }
      | _ => none

/-- The rows that the store has, in memory and in its live segments. -/
def Racing.stored (s : Racing) : List EventRow :=
  unpublished s.store.catalog.manifests s.memory ++ s.store.live

/-- What goes on beside a lookup: swaps with the same rows, their consolidations, and other
readers. Segment ids are unique, and a reader has read a generation that was reached. -/
def Beside (s : Racing) : Event → Prop
  | .tx (.swaps retire segments buckets) => UniqueIds s.store (.swaps retire segments buckets) ∧
      (s.lookup.isSome = true → SameRows s.store retire segments)
  | .tx (.consolidates _) => True
  | .tx e => UniqueIds s.store e ∧ s.lookup.isNone = true
  | .memory _ | .predicates _ => s.lookup.isNone = true
  | .fill generation => generation ≤ s.store.catalog.generation
  | _ => True

/-- The candidates that a lookup goes by before it has read the manifests. -/
def Racing.pruning (s : Racing) (l : Lookup) : List Id :=
  match l.stage with
  | .asking _ generation => (s.cache.filter fun held => held.1 = generation).elim [] fun held =>
      held.2.candidates hash l.call.column l.call.value none
  | .pruned _ candidates => candidates
  | _ => []

/-- The column is one of those under which the locator has the rows of a segment. -/
def located (column : String) : Bool :=
  column ∈ ["event_id", "trace_id", "session_id", "request_id"] || column.toList.take 2 = ['p', ':']

/-- The locator has rows under the column, or has none under its fingerprint with the value's. -/
def Pruned (s : Published) (column : String) (value : Bytes) : Prop :=
  located column = true ∨ ∀ x ∈ s.files.entries, ¬ Fingerprinted hash floatText x.2 column value

def Agree (tombstones : List Tombstone) (rows : List EventRow) : Call → Prop
  | .correlated _ _ => True
  | .event eventId => ∀ r ∈ rows, ∀ r' ∈ rows, r.eventId = eventId → r'.eventId = eventId →
      hiddenBy floatText tombstones r = hiddenBy floatText tombstones r'

def Lookup.nextSegment (l : Lookup) : Option Manifest :=
  match l.stage with
  | .reading _ left _ => left.head?
  | _ => none

/-- No swap brings a row that is asked for while the lookup goes by candidates that it has, and
the index of no segment rules out what its rows carry. -/
def LosesNothing (s : Racing) : Event → Prop
  | .tx (.swaps _ segments _) => ∀ l ∈ s.lookup, s.pruning hash l = [] ∨
      ∀ w ∈ segments, ∀ row ∈ w.2, l.asked floatText row = false
  | .call call => Pruned hash floatText s.store call.column call.value ∧
      Agree floatText s.store.catalog.tombstones.values s.stored call
  | .look => ∀ l ∈ s.lookup, ∀ m ∈ l.nextSegment,
      (∃ row ∈ s.store.rowsOf m.segmentId, l.asked floatText row = true) →
        mayHold (s.store.rowsOf m.segmentId) l.call.column l.call.value = true
  | _ => True

instance (s : Racing) (e : Event) : Decidable (Beside s e) :=
  match e with
  | .tx (.swaps _ _ _) => inferInstanceAs (Decidable (_ ∧ (_ → _)))
  | .tx (.consolidates _) | .invalidate | .call _ | .look | .returns => inferInstanceAs (Decidable True)
  | .tx (.seals segments checkpoint) =>
      inferInstanceAs (Decidable (UniqueIds s.store (.seals segments checkpoint) ∧ _))
  | .tx (.installs segments) => inferInstanceAs (Decidable (UniqueIds s.store (.installs segments) ∧ _))
  | .memory _ | .predicates _ => inferInstanceAs (Decidable (s.lookup.isNone = true))
  | .fill generation => inferInstanceAs (Decidable (generation ≤ s.store.catalog.generation))

instance (tombstones : List Tombstone) (rows : List EventRow) (call : Call) :
    Decidable (Agree floatText tombstones rows call) :=
  match call with
  | .correlated _ _ => inferInstanceAs (Decidable True)
  | .event _ => inferInstanceAs (Decidable (∀ r ∈ rows, _))

instance (s : Published) (column : String) (value : Bytes) :
    Decidable (Pruned hash floatText s column value) :=
  inferInstanceAs (Decidable (_ ∨ _))

instance (s : Racing) (e : Event) : Decidable (LosesNothing hash floatText mayHold s e) :=
  match e with
  | .tx (.swaps _ _ _) => inferInstanceAs (Decidable (∀ l ∈ s.lookup, _ ∨ _))
  | .call _ => inferInstanceAs (Decidable (_ ∧ _))
  | .look => inferInstanceAs (Decidable (∀ l ∈ s.lookup, ∀ m ∈ l.nextSegment, (∃ row ∈ _, _) → _))
  | .tx (.seals _ _) | .tx (.installs _) | .tx (.consolidates _) | .memory _ | .predicates _ | .fill _
  | .invalidate | .returns => inferInstanceAs (Decidable True)

def Lookup.InFull (l : Lookup) (s : Racing) (answer : Answer) : Prop :=
  match l.call, answer with
  | .correlated _ _, .scanned rows incomplete =>
      rows.Perm (s.stored.filter (l.asked floatText)) ∧ incomplete = s.logUnreadable
  | .event _, .event found =>
      (∀ row ∈ found, row ∈ s.stored ∧ l.asked floatText row = true) ∧
        (found = none → ∀ row ∈ s.stored, l.asked floatText row = false)
  | _, _ => False

end

section
variable {floatText : UInt64 → String} {row : EventRow} {column : String} {value : Bytes} {call : Call}

theorem indexed_of_carries (under : located column = true) (carries : rowCarries floatText row column value = true) :
    (column, value) ∈ indexedValues floatText row := by
  unfold rowCarries at carries
  split at carries
  · rename_i key named
    obtain ⟨held, found, shown⟩ := (Option.any_eq_true _ _).mp carries
    obtain ⟨entry, there, rfl⟩ := Option.map_eq_some_iff.mp found
    have own : entry.1 = .ofList key := by simpa using find?_some there
    have same : propertyColumn entry.1 = column := by
      rw [own, propertyColumn]
      exact String.toList_inj.mp (by simp [named])
    refine mem_cons_of_mem _ (mem_append_right _ (mem_map.mpr ⟨entry, ?_, ?_⟩))
    · exact mem_of_find?_eq_some there
    · rw [same, of_decide_eq_true shown]
  · have optional : ∀ {α : Type} {f : α → Bytes} {x : Option α} {name : String},
        (x.any fun a => decide (f a = value)) = true → (name, value) ∈ x.toList.map fun a => (name, f a) := by
      intro α f x name some
      obtain ⟨a, rfl, shown⟩ := (Option.any_eq_true _ _).mp some
      simpa using (of_decide_eq_true shown).symm
    split at carries
    · rw [← of_decide_eq_true carries]
      exact mem_cons_self
    case h_4 => simp [indexedValues, optional carries]
    case h_5 => simp [indexedValues, optional carries]
    case h_6 => simp [indexedValues, optional carries]
    all_goals simp [located] at under carries

theorem Call.indexed (under : located call.column = true) (keeps : call.keeps floatText row = true) :
    (call.column, call.value) ∈ indexedValues floatText row := by
  cases call with
  | correlated column value => exact indexed_of_carries under keeps
  | event eventId =>
    obtain rfl : row.eventId = eventId := by simpa [Call.keeps] using keeps
    exact mem_cons_self

end

section
variable (hash : Bytes → UInt64) (floatText : UInt64 → String)

/-- The candidates leave out no live segment with a row that is asked for. -/
def Lookup.Covers (l : Lookup) (s : Published) (candidates : List Id) : Prop :=
  candidates = [] ∨ ∀ m ∈ s.catalog.manifests,
    (∃ row ∈ s.rowsOf m.segmentId, l.asked floatText row = true) → m.segmentId ∈ candidates

/-- The lookup has what memory has for it, and that did not settle it. -/
def Lookup.Has (l : Lookup) (s : Racing) (rows : List EventRow) : Prop :=
  rows = (unpublished s.store.catalog.manifests s.memory).filter (l.call.keeps floatText) ∧
    ∀ eventId, l.call = .event eventId → rows = []

/-- What was read and what is left to read have all that is asked for. -/
structure Lookup.Reading (l : Lookup) (s : Racing) (rows : List EventRow) (left : List Manifest) : Prop where
  undecided : ∀ eventId, l.call = .event eventId → rows = []
  found : ∀ row ∈ rows, row ∈ s.stored ∧ l.call.keeps floatText row = true
  listed : ∀ m ∈ left, ∃ file, s.store.files.get? m.segmentId = some file ∧ ∀ row ∈ file, row ∈ s.stored
  all : ((rows ++ left.flatMap fun m => s.store.rowsOf m.segmentId).filter (l.asked floatText)).Perm
    (s.stored.filter (l.asked floatText))

def Lookup.StageSound (l : Lookup) (s : Racing) : Prop :=
  match l.stage with
  | .begun => True
  | .viewed view => view = s.memory.kept (l.call.keeps floatText)
  | .remembered rows => l.Has floatText s rows
  | .asking rows generation => l.Has floatText s rows ∧ generation ≤ s.store.catalog.generation ∧
      ∀ held ∈ s.cache, held.1 = generation →
        l.Covers floatText s.store (held.2.candidates hash l.call.column l.call.value none)
  | .pruned rows candidates => l.Has floatText s rows ∧ l.Covers floatText s.store candidates
  | .reading rows left incomplete => l.Reading floatText s rows left ∧ incomplete = s.logUnreadable
  | .answered result => ∃ answer, result = .ok answer ∧ l.InFull floatText s answer

structure Lookup.Sound (l : Lookup) (s : Racing) : Prop where
  tombstones : l.tombstones = s.store.catalog.tombstones.values
  pruned : Pruned hash floatText s.store l.call.column l.call.value
  agree : Agree floatText l.tombstones s.stored l.call
  stage : l.StageSound hash floatText s

/-- The kept locator is as the store's was at its generation, or after it. -/
def Racing.Cached (s : Racing) : Prop := ∀ held ∈ s.cache, held.1 ≤ s.store.catalog.generation ∧
  NamesEntered hash floatText s.store held.2 ∧
    (held.1 = s.store.catalog.generation → NamesLive hash floatText s.store held.2)

structure Racing.Sound (s : Racing) : Prop where
  filed : Filed hash floatText s.store
  cached : s.Cached hash floatText
  lookup : ∀ l ∈ s.lookup, l.Sound hash floatText s

structure Alike (s t : Racing) (brought : List Written) : Prop where
  onwards : Onwards s.store t.store
  swapped : Swapped s.store t.store brought
  front : unpublished t.store.catalog.manifests t.memory = unpublished s.store.catalog.manifests s.memory
  memory : t.memory = s.memory
  cache : t.cache = s.cache
  logUnreadable : t.logUnreadable = s.logUnreadable

end

section
variable {hash : Bytes → UInt64} {floatText : UInt64 → String} {s t : Racing} {l : Lookup} {brought : List Written}

theorem Alike.stored (alike : Alike s t brought) : t.stored.Perm s.stored := by
  rw [Racing.stored, Racing.stored, alike.front]
  exact alike.swapped.live.append_left _

theorem Lookup.InFull.alike {answer : Answer} (full : l.InFull floatText s answer)
    (alike : Alike s t brought) : l.InFull floatText t answer := by
  unfold Lookup.InFull at full ⊢
  split at full
  · obtain ⟨all, incomplete⟩ := full
    exact ⟨all.trans (alike.stored.filter _).symm, incomplete.trans alike.logUnreadable.symm⟩
  · obtain ⟨some, none⟩ := full
    refine ⟨fun row found => ?_, fun nothing row stored => ?_⟩
    · exact ⟨alike.stored.mem_iff.mpr (some row found).1, (some row found).2⟩
    · exact none nothing row (alike.stored.mem_iff.mp stored)
  · exact full

theorem Lookup.Has.alike {rows : List EventRow} (has : l.Has floatText s rows) (alike : Alike s t brought) :
    l.Has floatText t rows := by
  rw [Lookup.Has, alike.front]
  exact has

theorem Lookup.Covers.alike {candidates : List Id} (covers : l.Covers floatText s.store candidates)
    (filed : Filed hash floatText s.store) (alike : Alike s t brought)
    (quiet : candidates = [] ∨ ∀ w ∈ brought, ∀ row ∈ w.2, l.asked floatText row = false) :
    l.Covers floatText t.store candidates := by
  rcases covers with none | covers
  · exact .inl none
  rcases quiet with none | quiet
  · exact .inl none
  refine .inr fun m live ⟨row, there, asked⟩ => ?_
  rcases alike.swapped.listed m live with old | ⟨w, mem, rows⟩
  · obtain ⟨file, found⟩ := filed.file old
    refine covers m old ⟨row, ?_, asked⟩
    rw [Published.rowsOf, alike.onwards.rowsOf found] at there
    rwa [Published.rowsOf, found]
  · rw [quiet w mem row (rows ▸ there)] at asked
    cases asked

theorem Lookup.Reading.alike {rows : List EventRow} {left : List Manifest}
    (reads : l.Reading floatText s rows left) (alike : Alike s t brought) : l.Reading floatText t rows left := by
  refine ⟨reads.undecided, fun row inside =>
    (reads.found row inside).imp_left alike.stored.mem_iff.mpr, fun m inside => ?_, ?_⟩
  · obtain ⟨file, found, stored⟩ := reads.listed m inside
    exact ⟨file, alike.onwards.rowsOf found, fun row there => alike.stored.mem_iff.mpr (stored row there)⟩
  · have same : (left.flatMap fun m => t.store.rowsOf m.segmentId) =
        left.flatMap fun m => s.store.rowsOf m.segmentId := by
      refine flatMap_congr fun m inside => ?_
      obtain ⟨file, found, -⟩ := reads.listed m inside
      rw [Published.rowsOf, Published.rowsOf, alike.onwards.rowsOf found, found]
    rw [same]
    exact reads.all.trans (alike.stored.filter _).symm

theorem Lookup.Reading.of_same {l' : Lookup} {rows : List EventRow} {left : List Manifest}
    (reads : l.Reading floatText s rows left) (call : l'.call = l.call) (hides : l'.tombstones = l.tombstones)
    (store : t.store = s.store) (memory : t.memory = s.memory) : l'.Reading floatText t rows left := by
  have stored : t.stored = s.stored := by rw [Racing.stored, Racing.stored, store, memory]
  have asked : l'.asked floatText = l.asked floatText := by
    funext row
    rw [Lookup.asked, Lookup.asked, call, hides]
  refine ⟨?_, ?_, ?_, ?_⟩
  · rw [call]
    exact reads.undecided
  · rw [stored, call]
    exact reads.found
  · rw [stored, store]
    exact reads.listed
  · rw [stored, store, asked]
    exact reads.all

theorem pruned_alike {column : String} {value : Bytes} (pruned : Pruned hash floatText s.store column value)
    (alike : Alike s t brought) : Pruned hash floatText t.store column value := by
  refine pruned.imp id fun none x inside => ?_
  rcases alike.swapped.files x inside with old | ⟨w, mem, same⟩
  · exact none x old
  · rintro ⟨row, there, indexed⟩
    obtain ⟨y, filed, held⟩ := file_of_live (alike.swapped.brought w mem row (same ▸ there))
    exact none y filed ⟨row, held, indexed⟩

theorem Lookup.Sound.alike (sound : l.Sound hash floatText s) (filed : Filed hash floatText s.store)
    (alike : Alike s t brought)
    (quiet : s.pruning hash l = [] ∨ ∀ w ∈ brought, ∀ row ∈ w.2, l.asked floatText row = false) :
    l.Sound hash floatText t := by
  refine ⟨by rw [sound.tombstones, alike.onwards.tombstones], pruned_alike sound.pruned alike, ?_, ?_⟩
  · have agree := sound.agree
    cases asks : l.call with
    | correlated column value => trivial
    | event eventId =>
      rw [asks] at agree
      exact fun r stored r' stored' => agree r (alike.stored.mem_iff.mp stored) r'
        (alike.stored.mem_iff.mp stored')
  · have stage := sound.stage
    unfold Lookup.StageSound at stage ⊢
    split at stage
    · trivial
    · rw [alike.memory]
      exact stage
    · exact stage.alike alike
    · rename_i rows generation at'
      obtain ⟨has, low, covers⟩ := stage
      refine ⟨has.alike alike, low.trans alike.onwards.generation_le, fun held kept own => ?_⟩
      rw [alike.cache] at kept
      refine (covers held kept own).alike filed alike ?_
      rw [Option.mem_def] at kept
      have going : s.pruning hash l = held.2.candidates hash l.call.column l.call.value none := by
        simp [Racing.pruning, at', kept, own, Option.filter_some]
      rwa [going] at quiet
    · rename_i rows candidates at'
      have going : s.pruning hash l = candidates := by simp [Racing.pruning, at']
      rw [going] at quiet
      exact ⟨stage.1.alike alike, stage.2.alike filed alike quiet⟩
    · exact ⟨stage.1.alike alike, stage.2.trans alike.logUnreadable.symm⟩
    · obtain ⟨answer, rfl, full⟩ := stage
      exact ⟨answer, rfl, full.alike alike⟩

end

section
variable {hash : Bytes → UInt64} {floatText : UInt64 → String} {mayHold : List EventRow → String → Bytes → Bool}
variable {s t : Racing} {l : Lookup}

theorem Lookup.Sound.covers (sound : l.Sound hash floatText s) {locator : Locator}
    (live : NamesLive hash floatText s.store locator) (entered : NamesEntered hash floatText s.store locator) :
    l.Covers floatText s.store (locator.candidates hash l.call.column l.call.value none) := by
  rcases sound.pruned with under | none
  · refine .inr fun m inside ⟨row, there, asked⟩ => ?_
    exact live m inside row there (l.call.column, l.call.value)
      (Call.indexed under (Bool.and_eq_true_iff.mp asked).1)
  · refine .inl (eq_nil_iff_forall_not_mem.mpr fun id named => ?_)
    obtain ⟨x, filed, row, there, v, indexed, same⟩ := entered _ _ id named
    simp only [Locator.entryOf, Entry.mk.injEq] at same
    exact none x filed ⟨row, there, v, indexed, same.1.symm, same.2.1.symm⟩

theorem Racing.Sound.cachedLocator (sound : s.Sound hash floatText) (generation : ℕ) :
    ∃ locator, s.cachedLocator generation = .ok locator ∧ NamesEntered hash floatText s.store locator ∧
      (s.cache = some (generation, locator) ∨ NamesLive hash floatText s.store locator) := by
  obtain ⟨built, read, live, entered⟩ := sound.filed.locator
  unfold Racing.cachedLocator
  split
  · rename_i held locator kept
    split
    · rename_i same
      obtain rfl := same
      exact ⟨locator, rfl, (sound.cached _ kept).2.1, .inl kept⟩
    · exact ⟨built, read, entered, .inr live⟩
  · exact ⟨built, read, entered, .inr live⟩

theorem Racing.Sound.filled (sound : s.Sound hash floatText) {generation : ℕ} {locator : Locator}
    (reached : generation ≤ s.store.catalog.generation) (got : s.cachedLocator generation = .ok locator) :
    ({ s with cache := some (generation, locator) } : Racing).Sound hash floatText := by
  obtain ⟨other, same, entered, from'⟩ := sound.cachedLocator generation
  obtain rfl : other = locator := Except.ok.inj (same.symm.trans got)
  refine ⟨sound.filed, ?_, fun l inside => ?_⟩
  · rintro held ⟨⟩
    refine ⟨reached, entered, fun now => ?_⟩
    rcases from' with kept | live
    · exact (sound.cached _ kept).2.2 now
    · exact live
  · have old := sound.lookup l inside
    refine ⟨old.tombstones, old.pruned, old.agree, ?_⟩
    have stage := old.stage
    unfold Lookup.StageSound at stage ⊢
    split at stage
    case h_4 =>
      obtain ⟨has, low, covers⟩ := stage
      refine ⟨has, low, ?_⟩
      rintro held ⟨⟩ own
      rcases from' with kept | live
      · exact covers _ kept own
      · exact old.covers live entered
    case h_6 => exact ⟨stage.1.of_same rfl rfl rfl rfl, stage.2⟩
    all_goals exact stage

theorem Racing.Sound.goes (sound : s.Sound hash floatText) (inside : l ∈ s.lookup) {stage : Stage}
    (right : ({ l with stage := stage } : Lookup).StageSound hash floatText s) :
    (s.goes l stage).Sound hash floatText := by
  have old := sound.lookup l inside
  refine ⟨sound.filed, sound.cached, ?_⟩
  rintro l' ⟨⟩
  refine ⟨old.tombstones, old.pruned, old.agree, ?_⟩
  unfold Lookup.StageSound at right ⊢
  split at right
  case h_6 => exact ⟨right.1.of_same rfl rfl rfl rfl, right.2⟩
  all_goals exact right

theorem Lookup.Sound.settle (sound : l.Sound hash floatText s) {rows : List EventRow} {onward : Stage}
    (found : ∀ row ∈ rows, row ∈ s.stored ∧ l.call.keeps floatText row = true)
    (goes : (∀ eventId, l.call = .event eventId → rows = []) →
      ({ l with stage := onward } : Lookup).StageSound hash floatText s) :
    ({ l with stage := l.settle floatText rows onward } : Lookup).StageSound hash floatText s := by
  unfold Lookup.settle
  split
  · rename_i eventId row rest asks
    obtain ⟨stored, keeps⟩ := found row mem_cons_self
    have agree := sound.agree
    rw [asks] at agree keeps
    have own : row.eventId = eventId := by simpa [Call.keeps] using keeps
    refine ⟨_, rfl, ?_⟩
    simp only [Lookup.InFull, asks]
    split
    · rename_i hidden
      refine ⟨by simp, fun _ other there => ?_⟩
      by_cases same : other.eventId = eventId
      · simp [Lookup.asked, ← agree row stored other there own same, hidden]
      · simp [Lookup.asked, Call.keeps, same]
    · rename_i shown
      refine ⟨?_, by simp⟩
      rintro _ ⟨⟩
      exact ⟨stored, by simp [Lookup.asked, Call.keeps, own, shown]⟩
  · rename_i other
    refine goes fun eventId asks => ?_
    refine eq_nil_iff_forall_not_mem.mpr fun row inside => ?_
    obtain ⟨first, rest, same⟩ := exists_cons_of_ne_nil (ne_nil_of_mem inside)
    exact other eventId first rest asks same

theorem filter_asked (rows : List EventRow) :
    (rows.filter (l.call.keeps floatText)).filter (l.asked floatText) = rows.filter (l.asked floatText) := by
  rw [filter_filter]
  refine filter_congr fun row _ => ?_
  unfold Lookup.asked
  cases l.call.keeps floatText row <;> simp

theorem Lookup.Has.rows {rows : List EventRow} (has : l.Has floatText s rows) :
    ∀ row ∈ rows, row ∈ s.stored ∧ l.call.keeps floatText row = true := by
  intro row inside
  rw [has.1] at inside
  obtain ⟨there, keeps⟩ := List.mem_filter.mp inside
  exact ⟨mem_append_left _ there, keeps⟩

theorem Lookup.Has.reading {rows : List EventRow} {candidates : List Id} (has : l.Has floatText s rows)
    (covers : l.Covers floatText s.store candidates) (filed : Filed hash floatText s.store) :
    l.Reading floatText s rows (s.store.catalog.manifests.filter fun m =>
      candidates = [] ∨ m.segmentId ∈ candidates) := by
  refine ⟨has.2, has.rows, fun m inside => ?_, ?_⟩
  · obtain ⟨live, -⟩ := List.mem_filter.mp inside
    obtain ⟨file, found⟩ := filed.file live
    refine ⟨file, found, fun row there => mem_append_right _ (mem_flatMap.mpr ⟨m, live, ?_⟩)⟩
    rwa [Published.rowsOf, found]
  · rw [has.1, Racing.stored, Published.live, filter_append, filter_append, filter_asked,
      filter_flatMap, filter_flatMap]
    refine flatMap_filter_perm_iff.mpr fun m live some => ?_
    refine covers.imp id fun named => named m live ?_
    obtain ⟨row, there⟩ := exists_mem_of_ne_nil _ some
    exact ⟨row, List.mem_filter.mp there⟩

theorem Lookup.Reading.answer {rows : List EventRow} {incomplete : Bool}
    (reads : l.Reading floatText s rows []) (marked : incomplete = s.logUnreadable) :
    l.InFull floatText s (l.answer floatText rows incomplete) := by
  have all := reads.all
  rw [flatMap_nil, append_nil] at all
  unfold Lookup.InFull Lookup.answer
  cases asks : l.call with
  | correlated column value =>
    refine ⟨(perm_insertionSort _ _).trans ((List.Perm.of_eq ?_).trans all), marked⟩
    refine filter_congr fun row inside => ?_
    rw [Lookup.asked, (reads.found row inside).2, Bool.true_and]
  | event eventId =>
    refine ⟨by simp, fun _ row stored => ?_⟩
    rw [reads.undecided eventId asks] at all
    have none := filter_eq_nil_iff.mp (perm_nil.mp all.symm) row stored
    exact Bool.not_eq_true _ ▸ none

theorem Lookup.Reading.next {rows file : List EventRow} {m : Manifest} {left : List Manifest}
    (reads : l.Reading floatText s rows (m :: left)) (found : s.store.files.get? m.segmentId = some file)
    (undecided : ∀ eventId, l.call = .event eventId → rows ++ file.filter (l.call.keeps floatText) = []) :
    l.Reading floatText s (rows ++ file.filter (l.call.keeps floatText)) left := by
  obtain ⟨file', same, stored⟩ := reads.listed m mem_cons_self
  obtain rfl : file = file' := Option.some.inj (found.symm.trans same)
  refine ⟨undecided, fun row inside => ?_, fun n inside => reads.listed n (mem_cons_of_mem _ inside), ?_⟩
  · rcases mem_append.mp inside with old | new
    · exact reads.found row old
    · obtain ⟨there, keeps⟩ := List.mem_filter.mp new
      exact ⟨stored row there, keeps⟩
  · have all := reads.all
    rw [flatMap_cons, Published.rowsOf, found, Option.getD_some, filter_append,
      filter_append] at all
    rw [filter_append, filter_append, filter_asked, append_assoc]
    exact all

theorem Lookup.Reading.skip {rows : List EventRow} {m : Manifest} {left : List Manifest}
    (reads : l.Reading floatText s rows (m :: left))
    (nothing : ∀ row ∈ s.store.rowsOf m.segmentId, l.asked floatText row = false) :
    l.Reading floatText s rows left := by
  refine ⟨reads.undecided, reads.found, fun n inside => reads.listed n (mem_cons_of_mem _ inside), ?_⟩
  have all := reads.all
  have empty : (s.store.rowsOf m.segmentId).filter (l.asked floatText) = [] :=
    filter_eq_nil_iff.mpr fun row there => by simp [nothing row there]
  rw [flatMap_cons, filter_append, filter_append, empty, nil_append,
    ← filter_append] at all
  exact all

theorem Racing.Sound.look (sound : s.Sound hash floatText) (inside : l ∈ s.lookup)
    (exact' : LosesNothing hash floatText mayHold s .look)
    (next : s.look hash floatText mayHold l = some t) : t.Sound hash floatText := by
  have stage := (sound.lookup l inside).stage
  unfold Lookup.StageSound at stage
  unfold Racing.look at next
  split at next
  · cases next
    exact sound.goes inside rfl
  · rename_i view stands
    cases next
    simp only [stands] at stage
    have rows : unpublished s.store.catalog.manifests view =
        (unpublished s.store.catalog.manifests s.memory).filter (l.call.keeps floatText) := by
      rw [stage, unpublished_kept]
    refine sound.goes inside ((sound.lookup l inside).settle (fun row there => ?_) fun none => ⟨rows, none⟩)
    rw [rows] at there
    obtain ⟨held, keeps⟩ := List.mem_filter.mp there
    exact ⟨mem_append_left _ held, keeps⟩
  · rename_i rows stands
    cases next
    simp only [stands] at stage
    refine sound.goes inside ⟨stage, le_rfl, fun held kept own => ?_⟩
    obtain ⟨-, entered, live⟩ := sound.cached held kept
    exact (sound.lookup l inside).covers (live own) entered
  · rename_i rows generation stands
    simp only [stands] at stage
    obtain ⟨has, reached, -⟩ := stage
    obtain ⟨locator, got, -⟩ := sound.cachedLocator generation
    rw [got] at next
    cases next
    have filled := sound.filled reached got
    have now := (filled.lookup l inside).stage
    simp only [Lookup.StageSound, stands] at now
    exact filled.goes inside ⟨has, now.2.2 _ rfl rfl⟩
  · rename_i rows candidates stands
    cases next
    simp only [stands] at stage
    have reads := stage.1.reading stage.2 sound.filed
    exact sound.goes inside ⟨reads.of_same rfl rfl rfl rfl, rfl⟩
  · rename_i rows incomplete stands
    cases next
    simp only [stands] at stage
    exact sound.goes inside ⟨_, rfl, stage.1.answer stage.2⟩
  · rename_i rows m left incomplete stands
    simp only [stands] at stage
    obtain ⟨reads, marked⟩ := stage
    obtain ⟨file, found, stored⟩ := reads.listed m mem_cons_self
    have holds := exact' l inside m (by simp [Lookup.nextSegment, stands])
    rw [Published.rowsOf, found, Option.getD_some] at holds
    rw [found] at next
    simp only at next
    split at next
    · cases next
      refine sound.goes inside ((sound.lookup l inside).settle (fun row there => ?_) fun none =>
        ⟨(reads.next found none).of_same rfl rfl rfl rfl, marked⟩)
      rcases mem_append.mp there with old | new
      · exact reads.found row old
      · obtain ⟨held, keeps⟩ := List.mem_filter.mp new
        exact ⟨stored row held, keeps⟩
    · rename_i ruledOut
      cases next
      have nothing : ∀ row ∈ s.store.rowsOf m.segmentId, l.asked floatText row = false := by
        intro row held
        rw [Published.rowsOf, found, Option.getD_some] at held
        by_contra asked
        exact ruledOut (holds ⟨row, held, by simpa using asked⟩)
      exact sound.goes inside ⟨(reads.skip nothing).of_same rfl rfl rfl rfl, marked⟩
  · cases next

theorem Racing.Cached.onwards (cached : s.Cached hash floatText) (onwards : Onwards s.store t.store)
    (cache : t.cache = s.cache) : t.Cached hash floatText := by
  intro held kept
  rw [cache] at kept
  obtain ⟨reached, entered, live⟩ := cached held kept
  refine ⟨reached.trans onwards.generation_le, entered.onwards onwards, fun now => ?_⟩
  rcases onwards.generation with up | ⟨same, manifests, files⟩
  · omega
  · exact (live (now.trans same)).onwards manifests files

theorem alike_of_tx {e : Tx} {store : Published} (filed : Filed hash floatText s.store)
    (going : s.lookup.isSome = true) (beside : Beside s (.tx e)) (free : s.turnFree e = true)
    (next : s.store.step hash floatText e = some store)
    (loses : LosesNothing hash floatText mayHold s (.tx e)) : ∃ brought,
      Alike s { s with store := store } brought ∧ ∀ l ∈ s.lookup, s.pruning hash l = [] ∨
        ∀ w ∈ brought, ∀ row ∈ w.2, l.asked floatText row = false := by
  cases e with
  | swaps retire segments buckets =>
    obtain ⟨unique, same⟩ := beside
    have sealing : s.memory.sealing = [] := List.isEmpty_iff.mp free
    refine ⟨segments, ⟨(filed.step unique next).2, filed.swapped unique (same going) next, ?_, rfl, rfl, rfl⟩, loses⟩
    simp only [unpublished, sealing, filter_nil]
  | consolidates j =>
    obtain ⟨manifests, swapped⟩ := swapped_consolidated next
    refine ⟨[], ⟨(@Filed.step hash floatText _ _ filed (.consolidates j) trivial next).2, swapped, ?_, rfl, rfl,
      rfl⟩, fun _ _ => .inr (by simp)⟩
    simp only [manifests]
  | _ => simp_all [Beside]

theorem unique_of_beside {e : Tx} (beside : Beside s (.tx e)) : UniqueIds s.store e := by
  cases e with
  | consolidates => trivial
  | _ => exact beside.1

theorem Racing.Sound.step {e : Event} (sound : s.Sound hash floatText) (beside : Beside s e)
    (loses : LosesNothing hash floatText mayHold s e) (next : s.step hash floatText mayHold e = some t) :
    t.Sound hash floatText := by
  cases e with
  | tx e =>
    simp only [Racing.step, Option.ite_none_right_eq_some] at next
    obtain ⟨free, next⟩ := next
    obtain ⟨store, stepped, same⟩ := Option.bind_eq_some_iff.mp next
    cases same
    obtain ⟨filed, onwards⟩ := sound.filed.step (unique_of_beside beside) stepped
    refine ⟨filed, sound.cached.onwards onwards rfl, fun l inside => ?_⟩
    have going : s.lookup.isSome = true := Option.isSome_iff_exists.mpr ⟨l, inside⟩
    obtain ⟨brought, alike, quiet⟩ := alike_of_tx sound.filed going beside free stepped loses
    exact (sound.lookup l inside).alike sound.filed alike (quiet l inside)
  | memory view =>
    cases next
    have idle : s.lookup = none := Option.isNone_iff_eq_none.mp beside
    exact ⟨sound.filed, sound.cached, by simp [idle]⟩
  | predicates tombstones =>
    cases next
    have idle : s.lookup = none := Option.isNone_iff_eq_none.mp beside
    obtain ⟨⟨keyed, ordered, filed, retired⟩, recorded, entered⟩ := sound.filed
    exact ⟨⟨⟨⟨keyed.segments, keyed.runs⟩, ordered, filed, retired⟩, recorded, entered⟩, sound.cached,
      by simp [idle]⟩
  | fill generation =>
    simp only [Racing.step] at next
    obtain ⟨locator, got, -⟩ := sound.cachedLocator generation
    rw [got] at next
    cases next
    exact sound.filled beside got
  | invalidate =>
    cases next
    refine ⟨sound.filed, by simp [Racing.Cached], fun l inside => ?_⟩
    have old := sound.lookup l inside
    refine ⟨old.tombstones, old.pruned, old.agree, ?_⟩
    have stage := old.stage
    unfold Lookup.StageSound at stage ⊢
    split at stage
    case h_4 => exact ⟨stage.1, stage.2.1, by simp⟩
    case h_6 => exact ⟨stage.1.of_same rfl rfl rfl rfl, stage.2⟩
    all_goals exact stage
  | call call =>
    simp only [Racing.step] at next
    split at next
    · cases next
      refine ⟨sound.filed, sound.cached, ?_⟩
      rintro l ⟨⟩
      exact ⟨rfl, loses.1, loses.2, trivial⟩
    · cases next
  | look =>
    obtain ⟨l, inside, looks⟩ := Option.bind_eq_some_iff.mp next
    exact sound.look inside loses looks
  | returns =>
    simp only [Racing.step] at next
    split at next
    · cases next
      exact ⟨sound.filed, sound.cached, by simp⟩
    · cases next

end

section
variable (hash : Bytes → UInt64) (floatText : UInt64 → String) (mayHold : List EventRow → String → Bytes → Bool)

/-- A lookup that answers beside swaps of segments has all that was asked for, provided that no swap
brings a row of its answer while it goes by candidates that it has. -/
theorem swaps_shorten_no_lookup (logUnreadable : Bool) (s : Racing) (run : Reach (Racing.step hash floatText mayHold)
      (fun s e => Beside s e ∧ LosesNothing hash floatText mayHold s e) (.start logUnreadable) s)
    (l : Lookup) (inside : s.lookup = some l) (result : Except FormatError Answer)
    (answered : l.stage = .answered result) : l.tombstones = s.store.catalog.tombstones.values ∧
      ∃ answer, result = .ok answer ∧ l.InFull floatText s answer := by
  have sound : s.Sound hash floatText := by
    refine Reach.invariant (fun s => s.Sound hash floatText) ⟨.empty, ?_, ?_⟩
      (fun _ _ _ held allowed next => held.step allowed.1 allowed.2 next) run
    · simp [Racing.Cached, Racing.start]
    · simp [Racing.start]
  have own := sound.lookup l inside
  have stage := own.stage
  simp only [Lookup.StageSound, answered] at stage
  exact ⟨own.tombstones, stage⟩

end

section
open Xxh3

def sealed : Event := .tx (.seals [(plainManifest 1, [opened 7 "a"])] 1)

def swapped : Event := .tx (.swaps [1] [(plainManifest 2, [opened 7 "a"])] [0])

def asks : Event := .call (.correlated "session_id" (textBytes "a"))

def answerOf (s : Racing) : Option Answer :=
  match s.lookup with
  | some ⟨_, _, .answered (.ok answer)⟩ => some answer
  | _ => none

/-- The swap commits before the candidates are read. -/
theorem swaps_shorten_no_lookup_early : ∃ s l result,
    s.lookup = some l ∧ l.stage = .answered result ∧ answerOf s = some (.scanned [opened 7 "a"] false) ∧
      l.tombstones = s.store.catalog.tombstones.values ∧
        ∃ answer, result = .ok answer ∧ l.InFull (fun _ => "") s answer := by
  obtain ⟨s, run, found⟩ := @Reach.of_exec_any _ _ (Racing.step xxh3 (fun _ => "") noIndex)
    (fun s e => Beside s e ∧ LosesNothing xxh3 (fun _ => "") noIndex s e) _ (.start false)
    [sealed, asks, .look, swapped, .look, .look, .look, .look, .look, .look]
    (fun s => answerOf s = some (.scanned [opened 7 "a"] false)) (by decide +kernel)
  have found := of_decide_eq_true found
  unfold answerOf at found
  split at found
  · rename_i call tombstones answer stands
    exact ⟨s, _, _, stands, rfl, by rw [answerOf, stands]; exact found,
      swaps_shorten_no_lookup xxh3 (fun _ => "") noIndex false s run _ stands _ rfl⟩
  · cases found

/-- The candidates name a segment that a swap retires before the manifests are read. The lookup
reads no segment at all, and the store has the row. -/
theorem swap_shortens_lookup : ∃ s : Racing, Reach (Racing.step xxh3 (fun _ => "") noIndex) Beside (.start false) s ∧
      answerOf s = some (.scanned [] false) ∧ s.stored = [opened 7 "a"] ∧
      rowCarries (fun _ => "") (opened 7 "a") "session_id" (textBytes "a") = true ∧
      s.store.catalog.tombstones.values = [] := by
  obtain ⟨s, run, short⟩ := @Reach.of_exec_any _ _ (Racing.step xxh3 (fun _ => "") noIndex) Beside _
    (.start false) [sealed, asks, .look, .look, .look, .look, swapped, .look, .look]
    (fun s => answerOf s = some (.scanned [] false) ∧ s.stored = [opened 7 "a"] ∧
      rowCarries (fun _ => "") (opened 7 "a") "session_id" (textBytes "a") = true ∧
      s.store.catalog.tombstones.values = []) (by decide +kernel)
  exact ⟨s, run, of_decide_eq_true short⟩

end

end TallyOwl.Race
