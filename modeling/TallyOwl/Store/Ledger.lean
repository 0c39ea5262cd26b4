import TallyOwl.Lib.Runs
import TallyOwl.Store.Catalog
import TallyOwl.Store.RowCodec

/-! The erasure ledger (`catalog.rs`): a second database beside the catalog, written
before it. A predicate goes into the ledger under its id and then into the catalog under
its generation and id; retiring it, rebuilding the segments or losing the catalog leaves
the ledger alone. -/
namespace TallyOwl.Ledger
open Lib Format Locate Cbor RowCodec List OrderedMap

/-! The record of one predicate. -/

def field (value : Value) (name : String) : Nat :=
  ((value.field name).bind Value.asUnsigned).getD 0

def signed (value : Value) (name : String) : Int := timeField value name

def idOf (value : Value) : Option Id :=
  value.asBytes.bind fun bytes => if bytes.length = 16 then some (Id.ofBytes bytes) else none

def identifier (value : Value) (name : String) : Id := ((value.field name).bind idOf).getD 0

def tombstoneFields (t : Tombstone) : MapBuilder :=
  (∅ : MapBuilder)
    |>.put "id" (.bytes t.tombstoneId.bytes)
    |>.put "g" (.unsigned t.generation)
    |>.put "pr" (.bytes t.projectId.bytes)
    |>.put "ev" (.array (t.eventIds.map fun id => .bytes id.bytes))
    |>.putSome "prop" (t.property.map fun p => .array [.text p.1, .text p.2])
    |>.putSome "range" (t.range.map fun r => .array [.integer r.1, .integer r.2])
    |>.put "at" (.integer t.requestedAt)
    |>.put "hz" (.integer t.horizon)
    |>.put "why" (.text t.reason)
    |>.put "keep" (.array (t.exceptKinds.map .text))

def tombstoneToCbor (t : Tombstone) : Value := (tombstoneFields t).build

def encodeTombstone (t : Tombstone) : Bytes := encode (tombstoneToCbor t)

def list (value : Value) (name : String) : List Value :=
  ((value.field name).bind Value.asArray).getD []

def tombstoneFromCbor (value : Value) : Tombstone where
  tombstoneId := identifier value "id"
  generation := field value "g"
  projectId := identifier value "pr"
  eventIds := (list value "ev").filterMap idOf
  property := ((value.field "prop").bind Value.asArray).bind fun parts => do
    let key ← (← parts[0]?).asText
    let held ← (← parts[1]?).asText
    some (key, held)
  range := ((value.field "range").bind Value.asArray).bind fun parts => do
    let start ← (← parts[0]?).asInteger
    let stop ← (← parts[1]?).asInteger
    some (start, stop)
  requestedAt := signed value "at"
  horizon := signed value "hz"
  reason := (textField value "why").getD ""
  exceptKinds := (list value "keep").filterMap Value.asText

/-- A record of the ledger, or the text of the error that stops its reader. -/
def readTombstone (bytes : Bytes) : Except String Tombstone :=
  match decode bytes with
  | .error e => .error s!"Part of the stored index could not be read. {e.display}"
  | .ok value => .ok (tombstoneFromCbor value)

/-- What the ledger says about a project whose keys were destroyed. -/
def destructionFields (projectId : Id) (requestedAt : Int) (reason : String) : MapBuilder :=
  (∅ : MapBuilder)
    |>.put "id" (.bytes projectId.bytes)
    |>.put "g" (.unsigned 0)
    |>.put "pr" (.bytes projectId.bytes)
    |>.put "ev" (.array [])
    |>.put "at" (.integer requestedAt)
    |>.put "hz" (.integer (2 ^ 63 - 1))
    |>.put "why" (.text s!"The project's key was destroyed. {reason}")

/-! The calls. -/

structure State where
  ledger : OrderedMap Id Bytes
  catalog : Catalog
  keys : OrderedMap (Id ×ₗ ℕ) Bytes
  /-- The predicates some caller was told about and none retired. Nothing reads it. -/
  acknowledged : List Tombstone
  /-- The predicates that were in the catalog and were retired. Nothing reads it. -/
  retired : List Tombstone
  destroyed : List Id

def State.empty : State := ⟨∅, .empty, ∅, [], [], []⟩

/-- The predicate as `commit_tombstone` writes it, in a new generation. -/
def numbered (s : State) (t : Tombstone) : Tombstone :=
  { t with generation := s.catalog.tombstoneGeneration + 1 }

/-- The ledger write of `commit_tombstone`. -/
def record (s : State) (t : Tombstone) : State :=
  { s with ledger := s.ledger.insert t.tombstoneId (encodeTombstone (numbered s t)) }

def commitTombstone (s : State) (t : Tombstone) : State :=
  let t := numbered s t
  { record s t with
    catalog := { s.catalog with
      tombstones := s.catalog.tombstones.insert (toLex (t.generation, t.tombstoneId)) t
      tombstoneGeneration := t.generation }
    acknowledged := s.acknowledged ++ [t] }

def retireTombstones (s : State) (ids : List Id) : State :=
  { s with
    catalog := { s.catalog with
      tombstones := s.catalog.tombstones.filter fun _ t => t.tombstoneId ∉ ids }
    acknowledged := s.acknowledged.filter fun t => t.tombstoneId ∉ ids
    retired := s.retired ++ s.catalog.tombstones.values.filter fun t => t.tombstoneId ∈ ids }

def erasureLedger (s : State) : Except String (List Tombstone) := s.ledger.values.mapM readTombstone

def putBack (s : State) (entries : List Tombstone) : State :=
  { s with catalog := { s.catalog with
    tombstones := entries.foldl
      (fun held t => held.insert (toLex (t.generation, t.tombstoneId)) t) s.catalog.tombstones
    tombstoneGeneration :=
      (entries.map Tombstone.generation).foldl max s.catalog.tombstoneGeneration } }

def restoreTombstonesFromLedger (s : State) : Except String State :=
  (erasureLedger s).map (putBack s)

def keyGenerations (s : State) (projectId : Id) : List Nat :=
  (s.keys.filter fun key _ => (ofLex key).1 = projectId).entries.map fun e => (ofLex e.1).2

def rotateKey (s : State) (projectId : Id) (wrapped : Bytes) : State :=
  let generation := (keyGenerations s projectId).foldl max 0 + 1
  { s with keys := s.keys.insert (toLex (projectId, generation)) wrapped }

def destroyProjectKeys (s : State) (projectId : Id) (requestedAt : Int) (reason : String) : State :=
  if keyGenerations s projectId = [] then s
  else { s with
    ledger := s.ledger.insert projectId (encode (destructionFields projectId requestedAt reason).build)
    keys := s.keys.filter fun key _ => (ofLex key).1 ≠ projectId
    destroyed := s.destroyed ++ [projectId] }

inductive Event where
  | commitTombstone (t : Tombstone)
  /-- The process dies after the ledger write of a commit and before its catalog write. -/
  | diesBetween (t : Tombstone)
  | retireTombstones (ids : List Id)
  | rebuildFromManifests (manifests : List Manifest)
  | restoreTombstonesFromLedger
  | rotateKey (projectId : Id) (wrapped : Bytes)
  | destroyProjectKeys (projectId : Id) (requestedAt : Int) (reason : String)
  | loseCatalog

def step (s : State) : Event → Option State
  | .commitTombstone t =>
      if s.catalog.tombstoneGeneration + 1 < 2 ^ 64 then some (commitTombstone s t) else none
  | .diesBetween t =>
      if s.catalog.tombstoneGeneration + 1 < 2 ^ 64 then some (record s t) else none
  | .retireTombstones ids => some (retireTombstones s ids)
  | .rebuildFromManifests manifests =>
      -- The old records go in a transaction of their own, also where the publish then fails.
      some { s with
        catalog := (s.catalog.rebuildFromManifests manifests).getD { s.catalog with segments := ∅ } }
  | .restoreTombstonesFromLedger =>
      match restoreTombstonesFromLedger s with
      | .ok t => some t
      | .error _ => none
  | .rotateKey projectId wrapped => some (rotateKey s projectId wrapped)
  | .destroyProjectKeys projectId requestedAt reason =>
      some (destroyProjectKeys s projectId requestedAt reason)
  | .loseCatalog => some { s with catalog := .empty, keys := ∅ }

structure TombstoneFits (t : Tombstone) : Prop where
  events : t.eventIds.length < 2 ^ 64
  property : ∀ p ∈ t.property, TextFits p.1 ∧ TextFits p.2
  kinds : t.exceptKinds.length < 2 ^ 64 ∧ ∀ kind ∈ t.exceptKinds, TextFits kind
  range : ∀ r ∈ t.range, InI64 r.1 ∧ InI64 r.2
  requestedAt : InI64 t.requestedAt
  horizon : InI64 t.horizon
  reason : TextFits t.reason

theorem idOf_bytes (id : Id) : idOf (.bytes id.bytes) = some id := by
  simp [idOf, Value.asBytes]

variable {t : Tombstone}

theorem tombstoneFromCbor_tombstoneToCbor (fits : TombstoneFits t) : tombstoneFromCbor (tombstoneToCbor t) = t := by
  have get : ∀ name, (tombstoneToCbor t).field name = (tombstoneFields t).get? name := fun _ => rfl
  have fields : (tombstoneFields t).get? "id" = some (.bytes t.tombstoneId.bytes) ∧
      (tombstoneFields t).get? "g" = some (.unsigned t.generation) ∧
      (tombstoneFields t).get? "pr" = some (.bytes t.projectId.bytes) ∧
      (tombstoneFields t).get? "ev" = some (.array (t.eventIds.map fun id => .bytes id.bytes)) ∧
      (tombstoneFields t).get? "prop" =
        (t.property.map fun p => Value.array [.text p.1, .text p.2]) ∧
      (tombstoneFields t).get? "range" =
        (t.range.map fun r => Value.array [.integer r.1, .integer r.2]) ∧
      (tombstoneFields t).get? "at" = some (.integer t.requestedAt) ∧
      (tombstoneFields t).get? "hz" = some (.integer t.horizon) ∧
      (tombstoneFields t).get? "why" = some (.text t.reason) ∧
      (tombstoneFields t).get? "keep" = some (.array (t.exceptKinds.map .text)) := by
    refine ⟨?_, ?_, ?_, ?_, ?_, ?_, ?_, ?_, ?_, ?_⟩ <;>
      simp [tombstoneFields, get?_put, get?_putSome, get?_empty]
  obtain ⟨id, g, pr, ev, prop, range, requested, horizon, reason, kinds⟩ := fields
  have events : (t.eventIds.map fun id => Value.bytes id.bytes).filterMap idOf = t.eventIds := by
    rw [filterMap_map]
    simp [idOf_bytes]
  have excepts : (t.exceptKinds.map Value.text).filterMap Value.asText = t.exceptKinds := by
    rw [filterMap_map]
    simp [Function.comp_def, Value.asText]
  have named : ((t.property.map fun p => Value.array [.text p.1, .text p.2]).bind Value.asArray).bind
      (fun parts => do
        let key ← (← parts[0]?).asText
        let held ← (← parts[1]?).asText
        some (key, held)) = t.property := by
    cases t.property <;> simp [Value.asArray, Value.asText]
  have text : (Value.text t.reason).asText = some t.reason := rfl
  have between : ((t.range.map fun r => Value.array [.integer r.1, .integer r.2]).bind
      Value.asArray).bind (fun parts => do
        let start ← (← parts[0]?).asInteger
        let stop ← (← parts[1]?).asInteger
        some (start, stop)) = t.range := by
    cases held : t.range with
    | none => rfl
    | some r =>
      obtain ⟨start, stop⟩ := fits.range r held
      simp [Value.asArray, asInteger_integer start, asInteger_integer stop]
  simp only [tombstoneFromCbor, identifier, field, signed, timeField, textField, list, get, id, g, pr,
    ev, prop, range, requested, horizon, reason, kinds, named, between, Option.bind_some, idOf_bytes,
    Value.asUnsigned, Value.asArray, text, Option.getD_some, events, excepts,
    asInteger_integer fits.requestedAt, asInteger_integer fits.horizon]

theorem fits_tombstoneToCbor (fits : TombstoneFits t) (small : t.generation < 2 ^ 64)
    (n : Nat) : (tombstoneToCbor t).Fits (n + 2) := by
  have key : ∀ name ∈ ["id", "g", "pr", "ev", "prop", "range", "at", "hz", "why", "keep"],
      TextFits name := by
    unfold TextFits
    decide
  have events : (Value.array (t.eventIds.map fun id => .bytes id.bytes)).Fits (n + 1) := by
    refine ⟨by simpa using fits.events, fun item inside => ?_⟩
    obtain ⟨id, -, rfl⟩ := mem_map.mp inside
    exact fits_id _ _
  have kinds : (Value.array (t.exceptKinds.map .text)).Fits (n + 1) := by
    refine ⟨by simpa using fits.kinds.1, fun item inside => ?_⟩
    obtain ⟨kind, there, rfl⟩ := mem_map.mp inside
    exact fits_text (fits.kinds.2 kind there)
  have property : ∀ v, (t.property.map fun p => Value.array [.text p.1, .text p.2]) = some v →
      v.Fits (n + 1) := by
    intro v found
    obtain ⟨p, held, rfl⟩ := Option.map_eq_some_iff.mp found
    obtain ⟨first, second⟩ := fits.property p held
    refine ⟨by simp, fun item inside => ?_⟩
    simp only [mem_cons, not_mem_nil, or_false] at inside
    rcases inside with rfl | rfl
    · exact fits_text first
    · exact fits_text second
  have range : ∀ v, (t.range.map fun r => Value.array [.integer r.1, .integer r.2]) = some v →
      v.Fits (n + 1) := by
    intro v found
    obtain ⟨r, held, rfl⟩ := Option.map_eq_some_iff.mp found
    obtain ⟨first, second⟩ := fits.range r held
    refine ⟨by simp, fun item inside => ?_⟩
    simp only [mem_cons, not_mem_nil, or_false] at inside
    rcases inside with rfl | rfl
    · exact fits_integer first
    · exact fits_integer second
  have generation : (Value.unsigned t.generation).Fits (n + 1) := by simpa [Value.Fits] using small
  refine @Holds.build (n + 1) 10 _ ?_ (by omega)
  exact Holds.empty (n + 1)
    |>.put (key _ (by simp)) (fits_id _ _)
    |>.put (key _ (by simp)) generation
    |>.put (key _ (by simp)) (fits_id _ _)
    |>.put (key _ (by simp)) events
    |>.putSome (key _ (by simp)) property
    |>.putSome (key _ (by simp)) range
    |>.put (key _ (by simp)) (fits_integer fits.requestedAt)
    |>.put (key _ (by simp)) (fits_integer fits.horizon)
    |>.put (key _ (by simp)) (fits_text fits.reason)
    |>.put (key _ (by simp)) kinds

theorem readTombstone_encodeTombstone (fits : TombstoneFits t)
    (small : t.generation < 2 ^ 64) : readTombstone (encodeTombstone t) = .ok t := by
  rw [readTombstone, encodeTombstone, decode_encode (fits_tombstoneToCbor fits small 30)]
  exact congrArg Except.ok (tombstoneFromCbor_tombstoneToCbor fits)

/-! What a restore does. -/

section
variable {s t : State}

def Legible (s : State) : Prop :=
  ∀ x ∈ s.ledger.entries, ∃ t, readTombstone x.2 = .ok t ∧ t.tombstoneId = x.1

theorem erasureLedger_ok (legible : Legible s) : ∃ entries, erasureLedger s = .ok entries ∧
    ∀ t, t ∈ entries ↔ ∃ x ∈ s.ledger.entries, readTombstone x.2 = .ok t := by
  obtain ⟨found, reads⟩ : ∃ found : Bytes → Tombstone, ∀ bytes t,
      readTombstone bytes = .ok t → found bytes = t := by
    refine ⟨fun bytes => tombstoneFromCbor ((decode bytes).toOption.getD .null), fun bytes t read => ?_⟩
    cases decoded : decode bytes with
    | error e => simp [readTombstone, decoded] at read
    | ok value =>
      rw [readTombstone, decoded] at read
      simpa [Except.toOption, decoded] using read
  refine ⟨s.ledger.values.map found, mapM_ok fun bytes inside => ?_, fun t => ?_⟩
  · obtain ⟨id, there⟩ := mem_values.mp inside
    obtain ⟨t, read, -⟩ := legible _ there
    rw [reads _ _ read]
    exact read
  · rw [mem_map]
    constructor
    · rintro ⟨bytes, inside, rfl⟩
      obtain ⟨id, there⟩ := mem_values.mp inside
      obtain ⟨t, read, -⟩ := legible _ there
      refine ⟨_, there, ?_⟩
      rw [reads _ _ read]
      exact read
    · rintro ⟨x, there, read⟩
      exact ⟨x.2, mem_values.mpr ⟨x.1, there⟩, reads _ _ read⟩

/-- A restore gives back every record of the ledger, keeps no predicate but those and the
ones it found, and leaves a generation none of them is above. -/
structure Restored (s t : State) : Prop where
  ledger : t.ledger = s.ledger
  acknowledged : t.acknowledged = s.acknowledged
  back : ∀ x ∈ s.ledger.entries, ∀ y, readTombstone x.2 = .ok y →
    y ∈ t.catalog.tombstones.values ∧ y.generation ≤ t.catalog.tombstoneGeneration
  only : ∀ y ∈ t.catalog.tombstones.values, y ∈ s.catalog.tombstones.values ∨
    ∃ x ∈ s.ledger.entries, readTombstone x.2 = .ok y
  later : s.catalog.tombstoneGeneration ≤ t.catalog.tombstoneGeneration

theorem le_foldl_max (numbers : List Nat) (start : Nat) :
    start ≤ numbers.foldl max start ∧ ∀ n ∈ numbers, n ≤ numbers.foldl max start := by
  induction numbers generalizing start with
  | nil => simp
  | cons n rest ih =>
    obtain ⟨low, each⟩ := ih (max start n)
    refine ⟨(le_max_left _ _).trans low, fun k inside => ?_⟩
    rcases mem_cons.mp inside with rfl | later
    · exact (le_max_right _ _).trans low
    · exact each k later

theorem restore_ok (legible : Legible s) : ∃ t, restoreTombstonesFromLedger s = .ok t ∧ Restored s t := by
  obtain ⟨entries, read, iff⟩ := erasureLedger_ok legible
  obtain ⟨low, each⟩ := le_foldl_max (entries.map Tombstone.generation)
    s.catalog.tombstoneGeneration
  refine ⟨putBack s entries, by rw [restoreTombstonesFromLedger, read]; rfl, rfl, rfl, ?_, ?_, low⟩
  · intro x inside y found
    have mine := (iff y).mpr ⟨x, inside, found⟩
    refine ⟨mem_values.mpr ⟨_, @mem_foldl_insert_new _ _ _ _
      (fun t : Tombstone => toLex (t.generation, t.tombstoneId)) id _ _ _ mine ?_⟩,
      each _ (mem_map.mpr ⟨y, mine, rfl⟩)⟩
    -- Two records of one key are records of one id, and the ledger has one for each id.
    intro z other same
    obtain ⟨w, there, again⟩ := (iff z).mp other
    obtain ⟨_, first, own⟩ := legible x inside
    obtain ⟨_, second, own'⟩ := legible w there
    cases found.symm.trans first
    cases again.symm.trans second
    have ids : z.tombstoneId = y.tombstoneId := by simpa using congrArg (fun k => (ofLex k).2) same
    rw [own, own'] at ids
    have bytes := eq_of_mem (show (x.1, w.2) ∈ s.ledger.entries from ids ▸ there) inside
    rw [bytes, found] at again
    exact (Except.ok.inj again).symm
  · intro y inside
    obtain ⟨key, there⟩ := mem_values.mp inside
    rcases mem_foldl_insert there with old | ⟨z, mem, same⟩
    · exact .inl (mem_values.mpr ⟨key, old⟩)
    · obtain rfl := congrArg Prod.snd same
      exact .inr ((iff _).mp mem)

end

instance (t : Tombstone) : Decidable (TombstoneFits t) :=
  decidable_of_iff
    (t.eventIds.length < 2 ^ 64 ∧ (∀ p ∈ t.property, TextFits p.1 ∧ TextFits p.2) ∧
      (t.exceptKinds.length < 2 ^ 64 ∧ ∀ kind ∈ t.exceptKinds, TextFits kind) ∧
      (∀ r ∈ t.range, InI64 r.1 ∧ InI64 r.2) ∧ InI64 t.requestedAt ∧ InI64 t.horizon ∧
      TextFits t.reason)
    ⟨fun ⟨a, b, c, d, e, f, g⟩ => ⟨a, b, c, d, e, f, g⟩,
      fun ⟨a, b, c, d, e, f, g⟩ => ⟨a, b, c, d, e, f, g⟩⟩

section
variable {s t : State}

variable {x : Tombstone}

theorem TombstoneFits.numbered (fits : TombstoneFits x) : TombstoneFits (numbered s x) :=
  ⟨fits.events, fits.property, fits.kinds, fits.range, fits.requestedAt, fits.horizon, fits.reason⟩

/-! Erasures that are not undone. -/

def Distinct (s : State) : Event → Prop
  | .commitTombstone t | .diesBetween t =>
      s.ledger.get? t.tombstoneId = none ∧ TombstoneFits t
  | .destroyProjectKeys _ _ _ => False
  | _ => True

instance (s : State) (e : Event) : Decidable (Distinct s e) :=
  match e with
  | .commitTombstone _ | .diesBetween _ => inferInstanceAs (Decidable (_ ∧ _))
  | .destroyProjectKeys _ _ _ => inferInstanceAs (Decidable False)
  | .retireTombstones _ | .rebuildFromManifests _ | .restoreTombstonesFromLedger | .rotateKey _ _
  | .loseCatalog => inferInstanceAs (Decidable True)

structure Kept (s : State) : Prop where
  recorded : ∀ x ∈ s.ledger.entries, ∃ t, readTombstone x.2 = .ok t ∧ t.tombstoneId = x.1
  told : ∀ t ∈ s.acknowledged, ∃ x ∈ s.ledger.entries, readTombstone x.2 = .ok t
  below : ∀ t ∈ s.catalog.tombstones.values, t.generation ≤ s.catalog.tombstoneGeneration

theorem Kept.empty : Kept .empty where
  recorded := by simp [State.empty]
  told := by simp [State.empty]
  below := by simp [State.empty, Catalog.empty, OrderedMap.values]

theorem Kept.record (kept : Kept s) (small : s.catalog.tombstoneGeneration + 1 < 2 ^ 64)
    (new : s.ledger.get? x.tombstoneId = none) (fits : TombstoneFits x) : Kept (record s x) where
  recorded y inside := by
    rcases mem_insert.mp inside with rfl | ⟨old, -⟩
    · exact ⟨numbered s x, readTombstone_encodeTombstone fits.numbered small, rfl⟩
    · exact kept.recorded y old
  told y inside := by
    obtain ⟨z, there, read⟩ := kept.told y inside
    refine ⟨z, mem_insert.mpr (.inr ⟨there, ?_⟩), read⟩
    intro same
    exact get?_eq_none.mp new z.2 (same ▸ there)
  below := kept.below

theorem Kept.committed (kept : Kept s) (small : s.catalog.tombstoneGeneration + 1 < 2 ^ 64)
    (new : s.ledger.get? x.tombstoneId = none) (fits : TombstoneFits x) : Kept (commitTombstone s x) := by
  have inner := kept.record small new fits
  refine ⟨inner.recorded, ?_, ?_⟩
  · intro y inside
    rcases mem_append.mp inside with old | mine
    · exact inner.told y old
    · obtain rfl := mem_singleton.mp mine
      exact ⟨_, mem_insert.mpr (.inl rfl), readTombstone_encodeTombstone fits.numbered small⟩
  · intro y inside
    obtain ⟨key, there⟩ := mem_values.mp inside
    rcases mem_insert.mp there with equal | ⟨old, -⟩
    · obtain rfl := congrArg Prod.snd equal
      exact le_refl _
    · exact (kept.below y (mem_values.mpr ⟨key, old⟩)).trans (Nat.le_succ _)

theorem Kept.restored (kept : Kept s) (restored : Restored s t) : Kept t := by
  refine ⟨restored.ledger ▸ kept.recorded,
    by rw [restored.ledger, restored.acknowledged]; exact kept.told, fun y inside => ?_⟩
  rcases restored.only y inside with old | ⟨x, there, read⟩
  · exact (kept.below y old).trans restored.later
  · exact (restored.back x there y read).2

theorem Kept.step {e : Event} (kept : Kept s) (allowed : Distinct s e) (next : step s e = some t) : Kept t := by
  cases e with
  | commitTombstone x =>
    simp only [Ledger.step] at next
    split at next
    · rename_i small
      cases next
      exact kept.committed small allowed.1 allowed.2
    · cases next
  | diesBetween x =>
    simp only [Ledger.step] at next
    split at next
    · rename_i small
      cases next
      exact kept.record small allowed.1 allowed.2
    · cases next
  | retireTombstones ids =>
    cases next
    refine ⟨kept.recorded, fun y inside => kept.told y (List.mem_filter.mp inside).1, ?_⟩
    intro y inside
    obtain ⟨key, there⟩ := mem_values.mp inside
    exact kept.below y (mem_values.mpr ⟨key, (OrderedMap.mem_filter.mp there).1⟩)
  | rebuildFromManifests manifests =>
    cases next
    refine ⟨kept.recorded, kept.told, ?_⟩
    cases rebuilt : s.catalog.rebuildFromManifests manifests with
    | none => exact kept.below
    | some catalog =>
      have published : Catalog.publishInOneTransaction { s.catalog with segments := ∅ } [] manifests
          .new none = some catalog := rebuilt
      obtain ⟨tombstones, generation⟩ := Catalog.publish_tombstones published
      rw [Option.getD_some, tombstones, generation]
      exact kept.below
  | restoreTombstonesFromLedger =>
    obtain ⟨u, ran, restored⟩ := restore_ok kept.recorded
    simp only [Ledger.step, ran] at next
    cases next
    exact kept.restored restored
  | rotateKey projectId wrapped =>
    cases next
    exact ⟨kept.recorded, kept.told, kept.below⟩
  | destroyProjectKeys projectId requestedAt reason => exact allowed.elim
  | loseCatalog =>
    cases next
    exact ⟨kept.recorded, kept.told, by simp [Catalog.empty, OrderedMap.values]⟩

/-- After any run of commits under distinct ids, deaths between a ledger write and its
catalog write, retirements, rebuilds and lost catalogs, a restore hides every row that an
acknowledged and not retired predicate hides, and no stored predicate is above the stored
generation. -/
theorem erasure_survives_restore (floatText : UInt64 → String) (run : Reach step Distinct .empty s) :
    ∃ t, restoreTombstonesFromLedger s = .ok t ∧ (∀ x ∈ s.acknowledged, ∀ row, x.hides floatText row = true →
        hiddenBy floatText t.catalog.tombstones.values row = true) ∧
      ∀ x ∈ t.catalog.tombstones.values, x.generation ≤ t.catalog.tombstoneGeneration := by
  have kept := run.invariant Kept Kept.empty fun _ _ _ kept allowed next => kept.step allowed next
  obtain ⟨t, ran, restored⟩ := restore_ok kept.recorded
  refine ⟨t, ran, ?_, (kept.restored restored).below⟩
  intro x told row hides
  obtain ⟨record, there, read⟩ := kept.told x told
  exact hiddenBy_iff.mpr ⟨x, (restored.back record there x read).1, hides⟩

def forEvent (id project event : Id) : Tombstone :=
  ⟨id, 0, project, [event], none, [], none, 0, 0, "asked"⟩

/-- One acknowledged erasure, one that died between its writes, and a lost catalog. -/
theorem erasure_survives_restore_lost : ∃ s t, Reach step Distinct .empty s ∧
    s.acknowledged.length = 1 ∧ s.catalog.tombstones.values = [] ∧ restoreTombstonesFromLedger s = .ok t ∧
    hiddenBy (fun _ => "") t.catalog.tombstones.values (.new 7 "event" "a" 0) = true := by
  have ran : (exec (guarded step Distinct) .empty [.commitTombstone (forEvent 1 0 7),
      .diesBetween (forEvent 2 0 8), .loseCatalog]).any (fun s =>
        s.acknowledged = [{ forEvent 1 0 7 with generation := 1 }] ∧
          s.catalog.tombstones.values = []) = true := by
    decide +kernel
  obtain ⟨s, run, shape⟩ := Reach.of_exec_any ran
  obtain ⟨told, lost⟩ := of_decide_eq_true shape
  obtain ⟨t, restored, hides, -⟩ := erasure_survives_restore (fun _ => "") run
  refine ⟨s, t, run, by rw [told]; rfl, lost, restored, ?_⟩
  exact hides { forEvent 1 0 7 with generation := 1 } (by rw [told]; exact List.mem_singleton_self _)
    _ (by decide)

/-! Predicates that come back. -/

def Calls (_ : State) : Event → Prop
  | .commitTombstone t => TombstoneFits t
  | .destroyProjectKeys _ requestedAt reason => InI64 requestedAt ∧
      TextFits s!"The project's key was destroyed. {reason}"
  | .retireTombstones _ | .rotateKey _ _ => True
  | _ => False

/-- Every record of the ledger is a predicate the catalog has or had, or is about a
project whose keys were destroyed. -/
structure Traced (s : State) : Prop where
  records : ∀ x ∈ s.ledger.entries, ∃ t, readTombstone x.2 = .ok t ∧ t.tombstoneId = x.1 ∧
    (t ∈ s.catalog.tombstones.values ∨ t ∈ s.retired ∨ t.projectId ∈ s.destroyed)
  below : ∀ x ∈ s.catalog.tombstones.entries, (ofLex x.1).1 ≤ s.catalog.tombstoneGeneration

theorem Traced.empty : Traced .empty where
  records := by simp [State.empty]
  below := by simp [State.empty, Catalog.empty]

theorem Traced.legible (traced : Traced s) : Legible s := by
  intro x inside
  obtain ⟨t, read, own, -⟩ := traced.records x inside
  exact ⟨t, read, own⟩

theorem readTombstone_destruction {projectId : Id} {requestedAt : Int} {reason : String}
    (moment : InI64 requestedAt) (text : TextFits s!"The project's key was destroyed. {reason}") :
    ∃ t, readTombstone (encode (destructionFields projectId requestedAt reason).build) = .ok t ∧
      t.tombstoneId = projectId ∧ t.projectId = projectId := by
  have key : ∀ name ∈ ["id", "g", "pr", "ev", "at", "hz", "why"], TextFits name := by
    unfold TextFits
    decide
  have fits : (destructionFields projectId requestedAt reason).build.Fits maxDepth := by
    refine @Holds.build 31 7 _ ?_ (by omega)
    exact Holds.empty 31
      |>.put (key _ (by simp)) (fits_id _ _)
      |>.put (key _ (by simp)) (show (Value.unsigned 0).Fits 31 by simp [Value.Fits])
      |>.put (key _ (by simp)) (fits_id _ _)
      |>.put (key _ (by simp)) (show (Value.array []).Fits 31 from ⟨by simp, by simp⟩)
      |>.put (key _ (by simp)) (fits_integer moment)
      |>.put (key _ (by simp)) (fits_integer (by unfold InI64; omega))
      |>.put (key _ (by simp)) (fits_text text)
  refine ⟨_, by rw [readTombstone, decode_encode fits], ?_, ?_⟩
  · simp [tombstoneFromCbor, identifier, field_build, destructionFields, get?_put, idOf_bytes]
  · simp [tombstoneFromCbor, identifier, field_build, destructionFields, get?_put, idOf_bytes]

theorem Traced.committed (traced : Traced s)
    (small : s.catalog.tombstoneGeneration + 1 < 2 ^ 64) (fits : TombstoneFits x) : Traced (commitTombstone s x) where
  records y inside := by
    rcases mem_insert.mp inside with rfl | ⟨old, -⟩
    · refine ⟨numbered s x, readTombstone_encodeTombstone fits.numbered small, rfl, .inl ?_⟩
      exact mem_values.mpr ⟨_, mem_insert.mpr (.inl rfl)⟩
    · obtain ⟨z, read, own, place⟩ := traced.records y old
      refine ⟨z, read, own, place.imp_left fun held => ?_⟩
      obtain ⟨key, there⟩ := mem_values.mp held
      refine mem_values.mpr ⟨key, mem_insert.mpr (.inr ⟨there, ?_⟩)⟩
      -- The new key has a generation of its own.
      rintro rfl
      have bound := traced.below _ there
      simp [numbered] at bound
  below y inside := by
    rcases mem_insert.mp inside with rfl | ⟨old, -⟩
    · exact le_refl _
    · exact (traced.below y old).trans (Nat.le_succ _)

theorem Traced.retired (traced : Traced s) (ids : List Id) : Traced (retireTombstones s ids) where
  records y inside := by
    obtain ⟨z, read, own, place⟩ := traced.records y inside
    refine ⟨z, read, own, ?_⟩
    rcases place with held | gone | destroyed
    · by_cases named : z.tombstoneId ∈ ids
      · exact .inr (.inl (mem_append_right _ (List.mem_filter.mpr ⟨held, by simpa using named⟩)))
      · obtain ⟨key, there⟩ := mem_values.mp held
        exact .inl (mem_values.mpr
          ⟨key, OrderedMap.mem_filter.mpr ⟨there, by simpa using named⟩⟩)
    · exact .inr (.inl (mem_append_left _ gone))
    · exact .inr (.inr destroyed)
  below y inside := traced.below y (OrderedMap.mem_filter.mp inside).1

theorem Traced.step {e : Event} (traced : Traced s) (allowed : Calls s e) (next : step s e = some t) : Traced t := by
  cases e with
  | commitTombstone x =>
    simp only [Ledger.step] at next
    split at next
    · rename_i small
      cases next
      exact traced.committed small allowed
    · cases next
  | retireTombstones ids =>
    cases next
    exact traced.retired ids
  | rotateKey projectId wrapped =>
    cases next
    exact ⟨traced.records, traced.below⟩
  | destroyProjectKeys projectId requestedAt reason =>
    cases next
    unfold destroyProjectKeys
    split
    · exact traced
    · refine ⟨fun y inside => ?_, traced.below⟩
      rcases mem_insert.mp inside with rfl | ⟨old, -⟩
      · obtain ⟨z, read, own, project⟩ := @readTombstone_destruction projectId _ _ allowed.1 allowed.2
        exact ⟨z, read, own, .inr (.inr (by simp [project]))⟩
      · obtain ⟨z, read, own, place⟩ := traced.records y old
        refine ⟨z, read, own, place.imp_right (Or.imp_right fun destroyed => ?_)⟩
        exact mem_append_left _ destroyed
  | _ => exact allowed.elim

theorem hides_project {floatText : UInt64 → String} {row : EventRow}
    (hides : x.hides floatText row = true) : row.projectId = x.projectId := by
  unfold Tombstone.hides at hides
  split at hides
  · cases hides
  · rename_i same
    exact not_not.mp same

/-- A restore puts every record of the ledger back. A row of a project whose keys nobody
destroyed, visible just before it, is hidden just after it exactly when a predicate that
was retired, and whose record the ledger has, hides the row. -/
theorem restore_hides_what_was_retired (floatText : UInt64 → String) (run : Reach step Calls .empty s) :
    ∃ t, restoreTombstonesFromLedger s = .ok t ∧ ∀ row, row.projectId ∉ s.destroyed →
      hiddenBy floatText s.catalog.tombstones.values row = false →
        (hiddenBy floatText t.catalog.tombstones.values row = true ↔
          ∃ x ∈ s.retired, (∃ r ∈ s.ledger.entries, readTombstone r.2 = .ok x) ∧ x.hides floatText row = true) := by
  have traced := run.invariant Traced Traced.empty fun _ _ _ traced allowed next =>
    traced.step allowed next
  obtain ⟨t, ran, restored⟩ := restore_ok traced.legible
  refine ⟨t, ran, fun row keeps visible => ⟨fun hidden => ?_, ?_⟩⟩
  · obtain ⟨x, held, hides⟩ := hiddenBy_iff.mp hidden
    have shown : x ∉ s.catalog.tombstones.values := by
      intro before
      rw [hiddenBy_iff.mpr ⟨x, before, hides⟩] at visible
      cases visible
    rcases restored.only x held with before | ⟨r, there, read⟩
    · exact (shown before).elim
    · obtain ⟨y, again, -, place⟩ := traced.records r there
      obtain rfl := Except.ok.inj (read.symm.trans again)
      rcases place with before | gone | destroyed
      · exact (shown before).elim
      · exact ⟨x, gone, ⟨r, there, read⟩, hides⟩
      · exact (keeps (hides_project hides ▸ destroyed)).elim
  · rintro ⟨x, -, ⟨r, there, read⟩, hides⟩
    exact hiddenBy_iff.mpr ⟨x, (restored.back r there x read).1, hides⟩

def retiredOne : State := retireTombstones (commitTombstone .empty (forEvent 1 0 7)) [1]

theorem reach_retiredOne : Reach step Calls .empty retiredOne := by
  refine .step (.retireTombstones [1]) (.step (.commitTombstone (forEvent 1 0 7)) .start ?_ ?_) ?_ rfl
  · exact of_decide_eq_true (p := TombstoneFits (forEvent 1 0 7)) rfl
  · rfl
  · trivial

/-- A row that a retired predicate named is visible before the restore and hidden after it. -/
theorem restore_hides_a_visible_row : ∃ s t, Reach step Calls .empty s ∧
    hiddenBy (fun _ => "") s.catalog.tombstones.values (.new 7 "event" "a" 0) = false ∧
    restoreTombstonesFromLedger s = .ok t ∧
    hiddenBy (fun _ => "") t.catalog.tombstones.values (.new 7 "event" "a" 0) = true := by
  have traced := reach_retiredOne.invariant Traced Traced.empty fun _ _ _ traced allowed next =>
    traced.step allowed next
  obtain ⟨t, ran, restored⟩ := restore_ok traced.legible
  refine ⟨retiredOne, t, reach_retiredOne, by decide +kernel, ran, hiddenBy_iff.mpr ?_⟩
  have fits : TombstoneFits (forEvent 1 0 7) := of_decide_eq_true (p := TombstoneFits _) rfl
  have same := readTombstone_encodeTombstone (@TombstoneFits.numbered .empty _ fits)
    (by simp [numbered, State.empty, Catalog.empty])
  exact ⟨_, (restored.back _ (OrderedMap.mem_insert.mpr (.inl rfl)) _ same).1, by decide⟩

/-- The same run, read through the general statement. -/
theorem restore_hides_what_was_retired_once : ∃ t, restoreTombstonesFromLedger retiredOne = .ok t ∧
    (hiddenBy (fun _ => "") t.catalog.tombstones.values (.new 8 "event" "a" 0) = true ↔
      ∃ x ∈ retiredOne.retired, (∃ r ∈ retiredOne.ledger.entries, readTombstone r.2 = .ok x) ∧
        x.hides (fun _ => "") (.new 8 "event" "a" 0) = true) := by
  obtain ⟨t, ran, each⟩ := restore_hides_what_was_retired (fun _ => "") reach_retiredOne
  exact ⟨t, ran, each _ (by decide +kernel) (by decide +kernel)⟩

end

end TallyOwl.Ledger
