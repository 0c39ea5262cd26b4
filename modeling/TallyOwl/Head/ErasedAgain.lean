import TallyOwl.Head.Erasure
import TallyOwl.Store.Ledger

/-! Erasures that are asked for again (`erasure.rs`, `catalog.rs`). The ledger keeps a
predicate under an id made of the request and of its place in the plan, so a graph that
grew gives the place of one predicate to another. -/
namespace TallyOwl.Erasure
open Lib Identify List OrderedMap
open Query (QueryError)
open Ledger (State TombstoneFits readTombstone encodeTombstone restoreTombstonesFromLedger)

structure Names where
  projectId : Id
  eventIds : List Id
  property : Option (String × String)
  exceptKinds : List String
  range : Option (Int × Int)
  deriving DecidableEq

def names (t : Tombstone) : Names := ⟨t.projectId, t.eventIds, t.property, t.exceptKinds, t.range⟩

theorem hides_congr {floatText : UInt64 → String} {t u : Tombstone} (same : names t = names u)
    (row : EventRow) : t.hides floatText row = u.hides floatText row := by
  simp only [names, Names.mk.injEq] at same
  obtain ⟨project, events, property, kinds, range⟩ := same
  simp only [Tombstone.hides, project, events, property, kinds, range]

structure Report where
  requestId : String
  predicates : Nat
  identifiers : List String
  tombstoneGeneration : Nat
  acceptedAt : Int
  deriving DecidableEq

def stoppedAfter (applied predicates : Nat) (why : String) : QueryError :=
  ⟨.internal, s!"This erasure stopped after {applied} of {predicates} predicates, so the person is removed from part of their data and not all of it. Send it again; the predicates have stable identifiers, so a repeat is one erasure. The reason it stopped: {why}"⟩

/-- How far a call gets: the store takes this many predicates. Of the next it may have written
the ledger record and not the catalog's. -/
structure Fate where
  applied : Nat
  between : Bool
  why : String
  deriving DecidableEq

def commits (s : State) (tombstones : List Tombstone) : Option State :=
  tombstones.foldlM (fun s t => Ledger.step s (.commitTombstone t)) s

section
variable (digest : Bytes → Id)

/-- Run one erasure against a store. It has no result where a generation would pass a `u64`. -/
def run (s : State) (request : Request) (identity : Identity) (fate : Fate) :
    Option (Except QueryError Report × State) :=
  match plan digest request identity with
  | .error e => some (.error e, s)
  | .ok tombstones => do
      let after ← commits s (tombstones.take fate.applied)
      match tombstones[fate.applied]? with
      | none => some (.ok {
          requestId := hex (identifierFor digest request 0).bytes
          predicates := tombstones.length
          identifiers := keys ((tombstones.filterMap Tombstone.property).foldl
            (fun out property => out.insert property.2 ()) ∅)
          tombstoneGeneration := if tombstones = [] then 0 else after.catalog.tombstoneGeneration
          acceptedAt := request.requestedAt }, after)
      | some next =>
          let after ← if fate.between then Ledger.step after (.diesBetween next) else some after
          some (.error (stoppedAfter fate.applied tombstones.length fate.why), after)

/-- A store, and the rows that identity graphs are built from. -/
structure World where
  store : State
  rows : List EventRow

inductive Event where
  | gain (row : EventRow)
  | erase (request : Request) (fate : Fate)

def World.identity (w : World) (request : Request) : Identity := Identity.build request.projectId w.rows

def step (w : World) : Event → Option World
  | .gain row =>
      if row.kind = "identify" ∨ row.kind = "alias" then some { w with rows := w.rows ++ [row] } else none
  | .erase request fate =>
      (run digest w.store request (w.identity request) fate).map fun ran => { w with store := ran.2 }

def World.start : World := ⟨.empty, []⟩

/-! Which calls keep what earlier ones recorded. -/

def written (request : Request) (identity : Identity) (fate : Fate) : List Tombstone :=
  match plan digest request identity with
  | .error _ => []
  | .ok tombstones => tombstones.take (fate.applied + if fate.between then 1 else 0)

def replaced (s : State) (tombstones : List Tombstone) : List Tombstone :=
  tombstones.filterMap fun t =>
    (s.ledger.get? t.tombstoneId).bind fun bytes => (readTombstone bytes).toOption

def left (s : State) (tombstones : List Tombstone) : List Tombstone :=
  (s.ledger.entries.filter fun entry => entry.1 ∉ tombstones.map Tombstone.tombstoneId).filterMap
    fun entry => (readTombstone entry.2).toOption

/-- What a call takes from the ledger it writes again, or another record has it. -/
structure Rewrites (s : State) (tombstones : List Tombstone) : Prop where
  fits : ∀ t ∈ tombstones, TombstoneFits t
  distinct : (tombstones.map Tombstone.tombstoneId).Nodup
  again : ∀ old ∈ replaced s tombstones, ∃ t ∈ tombstones ++ left s tombstones, names t = names old

/-- An event takes nothing from the ledger that it does not put back. -/
def Keeps (w : World) : Event → Prop
  | .gain _ => True
  | .erase request fate => Rewrites w.store (written digest request (w.identity request) fate)

end

/-! What a call writes. -/

section
variable {digest : Bytes → Id} {s t u : State} {tombstones others : List Tombstone} {x : Tombstone}

/-- The ledger has a record, and it selects the rows that a predicate selects. -/
def Recorded (s : State) (id : Id) (x : Tombstone) : Prop :=
  ∃ bytes y, s.ledger.get? id = some bytes ∧ readTombstone bytes = .ok y ∧ names y = names x

structure Wrote (s t : State) (tombstones : List Tombstone) : Prop where
  legible : Ledger.Legible s → Ledger.Legible t
  others : ∀ id, id ∉ tombstones.map Tombstone.tombstoneId → t.ledger.get? id = s.ledger.get? id
  each : ∀ x ∈ tombstones, Recorded t x.tombstoneId x
  told : ∀ x ∈ t.acknowledged, x ∈ s.acknowledged ∨ ∃ y ∈ tombstones, names y = names x

theorem wrote_nil : Wrote s s [] where
  legible legible := legible
  others _ _ := rfl
  each x inside := by cases inside
  told _ inside := .inl inside

theorem wrote_record (fits : TombstoneFits x) (small : s.catalog.tombstoneGeneration + 1 < 2 ^ 64)
    (ledger : t.ledger = (Ledger.record s x).ledger)
    (told : ∀ y ∈ t.acknowledged, y ∈ s.acknowledged ∨ names x = names y) : Wrote s t [x] where
  legible legible y inside := by
    rw [ledger] at inside
    rcases mem_insert.mp inside with rfl | ⟨old, -⟩
    · exact ⟨_, Ledger.readTombstone_encodeTombstone fits.numbered small, rfl⟩
    · exact legible y old
  others id other := by
    have apart : id ≠ x.tombstoneId := by simpa using other
    rw [ledger, Ledger.record, get?_insert, if_neg apart]
  each y inside := by
    obtain rfl := mem_singleton.mp inside
    refine ⟨_, _, ?_, Ledger.readTombstone_encodeTombstone fits.numbered small, rfl⟩
    rw [ledger, Ledger.record, get?_insert, if_pos rfl]
  told y inside := by simpa using told y inside

theorem wrote_commit (fits : TombstoneFits x) (next : Ledger.step s (.commitTombstone x) = some t) : Wrote s t [x] := by
  simp only [Ledger.step] at next
  split at next
  · rename_i small
    cases next
    refine wrote_record fits small rfl fun y inside => ?_
    rcases mem_append.mp inside with old | mine
    · exact .inl old
    · obtain rfl := mem_singleton.mp mine
      exact .inr rfl
  · cases next

theorem wrote_dies (fits : TombstoneFits x) (next : Ledger.step s (.diesBetween x) = some t) : Wrote s t [x] := by
  simp only [Ledger.step] at next
  split at next
  · rename_i small
    cases next
    exact wrote_record fits small rfl fun y inside => .inl inside
  · cases next

theorem Wrote.append (first : Wrote s t tombstones) (second : Wrote t u others)
    (apart : ∀ x ∈ tombstones, x.tombstoneId ∉ others.map Tombstone.tombstoneId) :
    Wrote s u (tombstones ++ others) where
  legible legible := second.legible (first.legible legible)
  others id other := by
    rw [map_append, mem_append, not_or] at other
    rw [second.others id other.2, first.others id other.1]
  each x inside := by
    rcases mem_append.mp inside with early | late
    · obtain ⟨bytes, y, there, read, same⟩ := first.each x early
      exact ⟨bytes, y, (second.others _ (apart x early)).trans there, read, same⟩
    · exact second.each x late
  told x inside := by
    rcases second.told x inside with before | ⟨y, late, same⟩
    · rcases first.told x before with old | ⟨y, early, same⟩
      · exact .inl old
      · exact .inr ⟨y, mem_append_left _ early, same⟩
    · exact .inr ⟨y, mem_append_right _ late, same⟩

theorem wrote_commits (fits : ∀ x ∈ tombstones, TombstoneFits x)
    (distinct : (tombstones.map Tombstone.tombstoneId).Nodup) (ran : commits s tombstones = some t) :
    Wrote s t tombstones := by
  induction tombstones generalizing s with
  | nil =>
    cases ran
    exact wrote_nil
  | cons x rest ih =>
    obtain ⟨u, first, later⟩ := Option.bind_eq_some_iff.mp (ran : (Ledger.step s _).bind _ = _)
    obtain ⟨fresh, distinct⟩ := nodup_cons.mp distinct
    have one := wrote_commit (fits x mem_cons_self) first
    have many := ih (fun y inside => fits y (mem_cons_of_mem x inside)) distinct later
    refine one.append many fun y inside => ?_
    obtain rfl := mem_singleton.mp inside
    exact fresh

theorem wrote_run {request : Request} {identity : Identity} {fate : Fate} {answer : Except QueryError Report}
    (rewrites : Rewrites s (written digest request identity fate))
    (ran : run digest s request identity fate = some (answer, t)) :
    Wrote s t (written digest request identity fate) := by
  unfold run at ran
  unfold written at rewrites ⊢
  cases planned : plan digest request identity with
  | error e =>
    simp only [planned] at ran ⊢
    obtain ⟨-, rfl⟩ := Prod.mk.inj (Option.some.inj ran)
    exact wrote_nil
  | ok all =>
    simp only [planned] at ran rewrites ⊢
    obtain ⟨after, took, rest⟩ := Option.bind_eq_some_iff.mp ran
    have whole : all.take (fate.applied + if fate.between then 1 else 0) =
        all.take fate.applied ++ (if fate.between then all[fate.applied]?.toList else []) := by
      split
      · exact take_add_one
      · simp
    rw [whole] at rewrites ⊢
    have taken := wrote_commits (fun x inside => rewrites.fits x (mem_append_left _ inside))
      (List.nodup_append.mp (map_append ▸ rewrites.distinct)).1 took
    cases next : all[fate.applied]? with
    | none =>
      simp only [next] at rest
      obtain ⟨-, rfl⟩ := Prod.mk.inj (Option.some.inj rest)
      simpa using taken
    | some x =>
      simp only [next] at rest rewrites
      by_cases between : fate.between
      · simp only [between, if_true, Option.toList_some] at rest rewrites ⊢
        obtain ⟨died, wrote, ended⟩ := Option.bind_eq_some_iff.mp rest
        obtain ⟨-, rfl⟩ := Prod.mk.inj (Option.some.inj ended)
        refine taken.append (wrote_dies (rewrites.fits x (by simp)) wrote) fun y early late => ?_
        have distinct := rewrites.distinct
        rw [map_append, List.nodup_append] at distinct
        exact distinct.2.2 _ (mem_map_of_mem early) _ late rfl
      · simp only [between] at rest ⊢
        obtain ⟨-, rfl⟩ := Prod.mk.inj (Option.some.inj rest)
        simpa using taken

/-! What stays in the ledger. -/

/-- Every record reads, and every acknowledged predicate has one. -/
structure Carried (s : State) : Prop where
  legible : Ledger.Legible s
  held : ∀ x ∈ s.acknowledged, ∃ id, Recorded s id x

theorem Carried.wrote (carried : Carried s) (rewrites : Rewrites s tombstones)
    (wrote : Wrote s t tombstones) : Carried t := by
  refine ⟨wrote.legible carried.legible, fun x inside => ?_⟩
  rcases wrote.told x inside with old | ⟨y, mine, same⟩
  · obtain ⟨id, bytes, z, there, read, zx⟩ := carried.held x old
    by_cases taken : id ∈ tombstones.map Tombstone.tombstoneId
    · obtain ⟨w, inside, rfl⟩ := mem_map.mp taken
      have lost : z ∈ replaced s tombstones :=
        mem_filterMap.mpr ⟨w, inside, by simp [there, read, Except.toOption]⟩
      obtain ⟨v, stands, vz⟩ := rewrites.again z lost
      rcases mem_append.mp stands with mine | spared
      · obtain ⟨bytes, y, there, read, yv⟩ := wrote.each v mine
        exact ⟨v.tombstoneId, bytes, y, there, read, yv.trans (vz.trans zx)⟩
      · obtain ⟨entry, kept, reads⟩ := mem_filterMap.mp spared
        obtain ⟨stored, alone⟩ := List.mem_filter.mp kept
        have found := get?_eq_some.mpr stored
        refine ⟨entry.1, entry.2, v, (wrote.others _ (of_decide_eq_true alone)).trans found, ?_, vz.trans zx⟩
        cases read : readTombstone entry.2 with
        | error e => simp [read, Except.toOption] at reads
        | ok y =>
          obtain rfl : y = v := by simpa [read, Except.toOption] using reads
          rfl
    · exact ⟨id, bytes, z, (wrote.others id taken).trans there, read, zx⟩
  · obtain ⟨bytes, z, there, read, zy⟩ := wrote.each y mine
    exact ⟨y.tombstoneId, bytes, z, there, read, zy.trans same⟩

end

/-- The tombstones put back from the ledger, where the catalog was lost. -/
def restored (s : State) : Except String State :=
  restoreTombstonesFromLedger { s with catalog := .empty, keys := ∅ }

section
variable (floatText : UInt64 → String) (digest : Bytes → Id) {w v : World}

theorem Carried.step {e : Event} (carried : Carried w.store) (keeps : Keeps digest w e)
    (next : step digest w e = some v) : Carried v.store := by
  cases e with
  | gain row =>
    simp only [Erasure.step] at next
    split at next
    · cases next
      exact carried
    · cases next
  | erase request fate =>
    obtain ⟨⟨answer, after⟩, ran, rfl⟩ := Option.map_eq_some_iff.mp next
    exact carried.wrote keeps (wrote_run keeps ran)

/-- Where every call writes again what it takes from the ledger, a restore after a lost catalog
hides every row that an acknowledged predicate hides. -/
theorem repeated_erasure_keeps_predicates (run : Reach (step digest) (Keeps digest) .start w) :
    ∃ t, restored w.store = .ok t ∧ ∀ x ∈ w.store.acknowledged, ∀ row, x.hides floatText row = true →
      hiddenBy floatText t.catalog.tombstones.values row = true := by
  have carried := run.invariant (fun w => Carried w.store)
    ⟨by simp [World.start, Ledger.Legible, State.empty], by simp [World.start, State.empty]⟩
    fun _ _ _ carried keeps next => carried.step digest keeps next
  obtain ⟨t, ran, back⟩ := @Ledger.restore_ok { w.store with catalog := .empty, keys := ∅ } carried.legible
  refine ⟨t, ran, fun x told row hides => ?_⟩
  obtain ⟨id, bytes, y, there, read, same⟩ := carried.held x told
  refine hiddenBy_iff.mpr ⟨y, (back.back (id, bytes) (OrderedMap.get?_eq_some.mp there) y read).1, ?_⟩
  rw [hides_congr same]
  exact hides

end

instance (s : State) (tombstones : List Tombstone) : Decidable (Rewrites s tombstones) :=
  decidable_of_iff
    ((∀ t ∈ tombstones, TombstoneFits t) ∧ (tombstones.map Tombstone.tombstoneId).Nodup ∧
      ∀ old ∈ replaced s tombstones, ∃ t ∈ tombstones ++ left s tombstones, names t = names old)
    ⟨fun ⟨fits, distinct, again⟩ => ⟨fits, distinct, again⟩,
      fun ⟨fits, distinct, again⟩ => ⟨fits, distinct, again⟩⟩

instance (digest : Bytes → Id) (w : World) (e : Event) : Decidable (Keeps digest w e) :=
  match e with
  | .gain _ => inferInstanceAs (Decidable True)
  | .erase _ _ => inferInstanceAs (Decidable (Rewrites _ _))

/-- The last 16 bytes that are hashed: the end of the target's name, and the place. -/
def lastBytes (bytes : Bytes) : Id := Id.ofBytes (bytes.drop (bytes.length - 16))

def removeBen : Event := .erase ⟨0, .endUser "ben", "asked", 0, 0⟩ ⟨4, false, ""⟩

def aliasRow (eventId : Id) (moment : Int) (fromId toId : String) : EventRow :=
  shows (.new eventId "alias" "alias" moment) [("from_id", fromId), ("to_id", toId)]

/-- A second call on a graph that grew, which went through. -/
theorem repeated_erasure_keeps_predicates_alias : ∃ w t,
    Reach (step lastBytes) (Keeps lastBytes) .start w ∧ w.store.acknowledged.length = 6 ∧
      restored w.store = .ok t ∧ ∀ x ∈ w.store.acknowledged, ∀ row, x.hides (fun _ => "") row = true →
        hiddenBy (fun _ => "") t.catalog.tombstones.values row = true := by
  have ran : (exec (guarded (step lastBytes) (Keeps lastBytes)) .start
      [removeBen, .gain (aliasRow 1 1 "abe" "ben"), removeBen]).any
        (fun w => w.store.acknowledged.length = 6) = true := by
    decide +kernel
  obtain ⟨w, run, shape⟩ := Reach.of_exec_any ran
  obtain ⟨t, restored, hides⟩ := repeated_erasure_keeps_predicates (fun _ => "") lastBytes run
  exact ⟨w, t, run, of_decide_eq_true shape, restored, hides⟩

/-- A second call on a graph that grew, which stopped after one predicate: an acknowledged
predicate of the first is gone, and a row it hides is back after the restore. -/
theorem repeated_erasure_loses_predicate : ∃ w t, Reach (step lastBytes) anyStep .start w ∧
    restored w.store = .ok t ∧ (∃ x ∈ w.store.acknowledged, x.hides (fun _ => "") (known 9 9 "ben") = true) ∧
      hiddenBy (fun _ => "") t.catalog.tombstones.values (known 9 9 "ben") = false := by
  have ran : (exec (guarded (step lastBytes) anyStep) .start
      [removeBen, .gain (aliasRow 1 1 "abe" "ben"),
        .erase ⟨0, .endUser "ben", "asked", 0, 0⟩ ⟨1, false, ""⟩]).any
        (fun w => w.store.acknowledged.any (·.hides (fun _ => "") (known 9 9 "ben")) &&
          (restored w.store).toOption.any fun t =>
            !hiddenBy (fun _ => "") t.catalog.tombstones.values (known 9 9 "ben")) = true := by
    decide +kernel
  obtain ⟨w, run, shape⟩ := Reach.of_exec_any ran
  obtain ⟨told, back⟩ := Bool.and_eq_true_iff.mp shape
  cases found : restored w.store with
  | error e => simp [found, Except.toOption] at back
  | ok t =>
    rw [found] at back
    exact ⟨w, t, run, found, List.any_eq_true.mp told, by simpa [Except.toOption] using back⟩

end TallyOwl.Erasure
