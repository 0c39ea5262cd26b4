import TallyOwl.Head.Document
import TallyOwl.Head.Identity

/-! Removing one person, everywhere they are (`erasure.rs`): the standing predicates one
request needs. The 16 bytes of a hash that name a predicate are a parameter. -/
namespace TallyOwl.Erasure
open Lib Identify List
open Query (QueryError invalidArgument)
open Locate (asU64)

inductive Target where
  | endUser (who : String)
  | events (ids : List Id)
  | range (start stop : Int)
  deriving DecidableEq

structure Request where
  projectId : Id
  target : Target
  reason : String
  horizonMs : Int
  requestedAt : Int
  deriving DecidableEq

def defaultHorizonMs : Int := 30 * 86400000

/-- `char::is_whitespace`. -/
def isWhitespace (c : Char) : Bool :=
  (9 ≤ c.toNat ∧ c.toNat ≤ 13) ∨ c.toNat ∈ [32, 133, 160, 5760, 8232, 8233, 8239, 8287, 12288] ∨
    (8192 ≤ c.toNat ∧ c.toNat ≤ 8202)

def blank (text : String) : Bool := text.toList.all isWhitespace

def saturatingAdd (a b : Int) : Int := max (-2 ^ 63) (min (2 ^ 63 - 1) (a + b))

def Request.horizon (request : Request) : Int :=
  saturatingAdd request.requestedAt (if request.horizonMs > 0 then request.horizonMs else defaultHorizonMs)

def base (request : Request) (property : Option (String × String)) (eventIds : List Id)
    (range : Option (Int × Int)) : Tombstone where
  tombstoneId := 0
  generation := 0
  projectId := request.projectId
  eventIds := eventIds
  property := property
  exceptKinds := []
  range := range
  requestedAt := request.requestedAt
  horizon := request.horizon
  reason := request.reason

def columns : List String := [endUserId, anonymousId]

/-- What a request names, before the predicates have identifiers. -/
def predicates (request : Request) (identity : Identity) : Except QueryError (List Tombstone) :=
  match request.target with
  | .endUser who => .ok ((identity.everyIdentifierOf who).flatMap fun identifier =>
      columns.map fun column => base request (some (column, identifier)) [] none)
  | .events ids =>
      if ids = [] then .error (invalidArgument
        "This erasure names no events. Name the events, the person, or the time range to remove.")
      else .ok [base request none ids none]
  | .range start stop =>
      if stop ≤ start then .error (invalidArgument "An erasure range ends before it starts.")
      else .ok [base request none [] (some (start, stop))]

section
variable (digest : Bytes → Id)

def Target.hashed : Target → Bytes
  | .endUser who => textBytes "end-user" ++ textBytes who
  | .events ids => textBytes "events" ++ ids.flatMap Id.bytes
  | .range start stop => textBytes "range" ++ leBytes 8 (asU64 start) ++ leBytes 8 (asU64 stop)

def identifierFor (request : Request) (index : Nat) : Id :=
  digest (textBytes "tallyowl-erasure\x01" ++ request.projectId.bytes ++ request.target.hashed ++
    leBytes 8 index)

def plan (request : Request) (identity : Identity) : Except QueryError (List Tombstone) :=
  if blank request.reason then .error (invalidArgument
    "An erasure needs a reason. It is written to the audit record and it is what somebody reads a year from now.")
  else do
    let out ← predicates request identity
    .ok (out.mapIdx fun index t => { t with tombstoneId := identifierFor digest request index })

end

section
variable {floatText : UInt64 → String} {digest : Bytes → Id} {identity : Identity} {row : EventRow}

def forPerson (projectId : Id) (who reason : String) (horizonMs requestedAt : Int) : Request :=
  ⟨projectId, .endUser who, reason, horizonMs, requestedAt⟩

theorem correlationOf_columns {key : String} (column : key ∈ columns) : correlationOf row key = none := by
  have names : key = "end_user_id" ∨ key = "anonymous_id" := by
    simpa [columns, endUserId, anonymousId] using column
  rcases names with rfl | rfl <;> rfl

theorem hides_column {request : Request} {key value : String} (column : key ∈ columns) :
    (base request (some (key, value)) [] none).hides floatText row = true ↔ row.projectId = request.projectId ∧
        (row.property key).map (·.toDisplay floatText) = some value := by
  by_cases project : row.projectId = request.projectId
  · cases held : row.property key with
    | none => simp [Tombstone.hides, base, project, correlationOf_columns column, held]
    | some property => simp [Tombstone.hides, base, project, correlationOf_columns column, held]
  · simp [Tombstone.hides, base, project]

theorem hides_mapIdx {out : List Tombstone} {name : Nat → Id} :
    (∃ t ∈ out.mapIdx fun index t => { t with tombstoneId := name index }, t.hides floatText row = true) ↔
      ∃ t ∈ out, t.hides floatText row = true := by
  constructor
  · rintro ⟨t, inside, hides⟩
    obtain ⟨index, small, rfl⟩ := mem_mapIdx.mp inside
    exact ⟨out[index], getElem_mem small, hides⟩
  · rintro ⟨t, inside, hides⟩
    obtain ⟨index, small, rfl⟩ := getElem_of_mem inside
    exact ⟨_, mem_mapIdx.mpr ⟨index, small, rfl⟩, hides⟩

/-- A row shows a name that an erasure of a person collects, under one of the columns. -/
def ShowsCollected (floatText : UInt64 → String) (identity : Identity) (who : String) (row : EventRow) : Prop :=
  ∃ key ∈ columns, ∃ value, (row.property key).map (·.toDisplay floatText) = some value ∧
    Collected identity who value

theorem plan_hides {request : Request} {who : String} (explained : blank request.reason = false)
    (person : request.target = .endUser who) : ∃ tombstones, plan digest request identity = .ok tombstones ∧
      ∀ row, (∃ t ∈ tombstones, t.hides floatText row = true) ↔
        row.projectId = request.projectId ∧ ShowsCollected floatText identity who row := by
  refine ⟨_, by simp only [plan, explained, predicates, person, bind, Except.bind]; rfl, fun row => ?_⟩
  rw [hides_mapIdx]
  constructor
  · rintro ⟨t, inside, hides⟩
    obtain ⟨identifier, collected, inside⟩ := mem_flatMap.mp inside
    obtain ⟨key, column, rfl⟩ := mem_map.mp inside
    obtain ⟨project, shown⟩ := (hides_column column).mp hides
    exact ⟨project, key, column, identifier, shown, mem_everyIdentifierOf.mp collected⟩
  · rintro ⟨project, key, column, value, shown, collected⟩
    refine ⟨base request (some (key, value)) [] none, mem_flatMap.mpr ⟨value, ?_, ?_⟩, ?_⟩
    · exact mem_everyIdentifierOf.mpr collected
    · exact mem_map.mpr ⟨key, column, rfl⟩
    · exact (hides_column column).mpr ⟨project, shown⟩

theorem shown_of_text {key value : String} (carries : text row key = some value) :
    (row.property key).map (·.toDisplay floatText) = some value := by
  unfold text at carries
  split at carries
  · rename_i held there
    split at carries
    · cases carries
    · cases carries
      rw [there]
      rfl
  · cases carries

end

section
variable (floatText : UInt64 → String) (digest : Bytes → Id) (rows : List EventRow) (request : Request)
  (who : String) (row : EventRow)

/-- Every row that resolves to a person, now or when it happened, is hidden by a predicate of
the plan that removes that person. -/
theorem erasure_is_complete (resolution : Resolution) (person : request.target = .endUser who)
    (explained : blank request.reason = false) (theirs : (Identity.build request.projectId rows).who row resolution =
      some ((Identity.build request.projectId rows).canonical who)) :
    ∃ tombstones, plan digest request (Identity.build request.projectId rows) = .ok tombstones ∧
      ∃ t ∈ tombstones, t.hides floatText row = true := by
  obtain ⟨tombstones, planned, hides⟩ := @plan_hides floatText digest
    (Identity.build request.projectId rows) request who explained person
  refine ⟨tombstones, planned, (hides row).mpr ⟨?_, ?_⟩⟩
  · exact (projectId_of_who theirs).trans (projectId_build _ _)
  · obtain ⟨key, column, value, carries, collected⟩ := collected_of_who theirs
    exact ⟨key, column, value, shown_of_text carries, collected⟩

/-- Nothing ties a row of another end user to the person that is removed: not an alias chain that
was cut, not a timeline of that person, and not what the row shows as its anonymous identifier. -/
structure Untied (identity : Identity) (other : String) : Prop where
  uncut : other ≠ identity.canonical who
  unshared : ∀ anonymous links, identity.links.get? anonymous = some links → identity.TimelineOf who links →
    other ≠ anonymous ∧ ∀ link ∈ links, other ≠ link.endUserId
  undevice : ∀ value, (row.property anonymousId).map (·.toDisplay floatText) = some value →
    ¬ Collected identity who value

theorem untied_iff {identity : Identity} {other : String} (carries : text row endUserId = some other)
    (differs : identity.canonical other ≠ identity.canonical who) :
    ¬ ShowsCollected floatText identity who row ↔ Untied floatText who row identity other := by
  have shown := @shown_of_text floatText row endUserId other carries
  constructor
  · intro clear
    have alone : ¬ Collected identity who other := fun collected =>
      clear ⟨endUserId, by simp [columns], other, shown, collected⟩
    refine ⟨?_, fun anonymous links there theirs => ⟨?_, fun link one => ?_⟩, fun value held collected => ?_⟩
    · rintro rfl
      exact alone .canonical
    · rintro rfl
      exact alone (.timeline there theirs)
    · rintro rfl
      exact alone (.linked there theirs one)
    · exact clear ⟨anonymousId, by simp [columns], value, held, collected⟩
  · rintro untied ⟨key, column, value, held, collected⟩
    have names : key = endUserId ∨ key = anonymousId := by simpa [columns] using column
    rcases names with rfl | rfl
    · obtain rfl := Option.some.inj (shown.symm.trans held)
      cases collected with
      | named => exact differs rfl
      | canonical => exact untied.uncut rfl
      | merged into same => exact differs same
      | timeline there theirs => exact (untied.unshared _ _ there theirs).1 rfl
      | linked there theirs one => exact (untied.unshared _ _ there theirs).2 _ one rfl
    · exact untied.undevice value held collected

/-- An erasure leaves the row of another end user alone exactly where nothing ties the row to
the person that is removed. -/
theorem erasure_spares_others (person : request.target = .endUser who)
    (explained : blank request.reason = false) (mine : row.projectId = request.projectId) (other : String)
    (carries : text row endUserId = some other) (differs : (Identity.build request.projectId rows).canonical other ≠
      (Identity.build request.projectId rows).canonical who) :
    ∃ tombstones, plan digest request (Identity.build request.projectId rows) = .ok tombstones ∧
      ((∀ t ∈ tombstones, t.hides floatText row = false) ↔
        Untied floatText who row (Identity.build request.projectId rows) other) := by
  obtain ⟨tombstones, planned, hides⟩ := @plan_hides floatText digest
    (Identity.build request.projectId rows) request who explained person
  refine ⟨tombstones, planned, ?_⟩
  rw [← untied_iff floatText who row carries differs]
  have hidden := hides row
  simp only [mine, true_and] at hidden
  rw [← hidden]
  simp

end

/-! One device that two people signed in on. -/

def shows (row : EventRow) (properties : List (String × String)) : EventRow :=
  { row with properties := properties.map fun p => (p.1, .text p.2, "client") }

def identifyRow (eventId : Id) (moment : Int) (anonymous endUser : String) : EventRow :=
  shows (.new eventId "identify" "identify" moment) [(anonymousId, anonymous), (endUserId, endUser)]

def known (eventId : Id) (moment : Int) (endUser : String) : EventRow :=
  shows (.new eventId "event" "view" moment) [(endUserId, endUser)]

def sharedDevice : List EventRow := [identifyRow 1 1 "tablet" "ana", identifyRow 2 2 "tablet" "ben"]

def removeAna : Request := ⟨0, .endUser "ana", "asked", 0, 0⟩

/-- A row from before the sign-in is hidden with the person it turned out to be. -/
theorem erasure_is_complete_anonymous : ∃ tombstones,
    plan (fun _ => 0) removeAna (.build 0 [identifyRow 1 9 "tablet" "ana"]) = .ok tombstones ∧
      ∃ t ∈ tombstones, t.hides (fun _ => "") (shows (.new 3 "event" "view" 5) [(anonymousId, "tablet")]) = true :=
  erasure_is_complete (fun _ => "") (fun _ => 0) [identifyRow 1 9 "tablet" "ana"] removeAna "ana"
    (shows (.new 3 "event" "view" 5) [(anonymousId, "tablet")]) .latestKnown rfl (by decide) (by decide +kernel)

/-- A third person who never used the device keeps every row. -/
theorem erasure_spares_others_cal : ∃ tombstones, plan (fun _ => 0) removeAna (.build 0 sharedDevice) = .ok tombstones ∧
      ((∀ t ∈ tombstones, t.hides (fun _ => "") (known 3 3 "cal") = false) ↔
        Untied (fun _ => "") "ana" (known 3 3 "cal") (.build 0 sharedDevice) "cal") :=
  erasure_spares_others (fun _ => "") (fun _ => 0) sharedDevice removeAna "ana" (known 3 3 "cal") rfl
    (by decide) rfl "cal" (by decide) (by decide +kernel)

/-- Two people used one device, and removing the first hides what the second did signed in. -/
theorem erasure_hides_another : ∃ tombstones, plan (fun _ => 0) removeAna (.build 0 sharedDevice) = .ok tombstones ∧
      (∃ t ∈ tombstones, t.hides (fun _ => "") (known 3 3 "ben") = true) ∧
      text (known 3 3 "ben") endUserId = some "ben" ∧
      (Identity.build 0 sharedDevice).canonical "ben" ≠ (Identity.build 0 sharedDevice).canonical "ana" := by
  obtain ⟨tombstones, planned, hides⟩ := @plan_hides (fun _ => "") (fun _ => 0) (.build 0 sharedDevice)
    removeAna "ana" (by decide) rfl
  refine ⟨tombstones, planned, (hides _).mpr ⟨rfl, endUserId, by decide, "ben", rfl, ?_⟩, by decide, by decide +kernel⟩
  exact mem_everyIdentifierOf.mp (by decide +kernel)

end TallyOwl.Erasure
