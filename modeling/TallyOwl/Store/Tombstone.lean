import TallyOwl.Store.Row

/-! Standing predicates that hide rows (`catalog.rs`). -/
namespace TallyOwl

structure Tombstone where
  tombstoneId : Id
  generation : Nat
  projectId : Id
  eventIds : List Id
  property : Option (String × String)
  exceptKinds : List String
  range : Option (Int × Int)
  requestedAt : Int
  horizon : Int
  reason : String
  deriving DecidableEq

def correlationOf (row : EventRow) (key : String) : Option String :=
  match key with
  | "trace_id" => row.traceId.map fun id => hex id.bytes
  | "session_id" => row.sessionId
  | "request_id" => row.requestId
  | "service_name" => row.serviceName
  | "release" => row.release
  | "kind" => some row.kind
  | "name" => some row.name
  | _ => none

def EventRow.property (row : EventRow) (key : String) : Option PropertyValue :=
  (row.properties.find? (·.1 = key)).map fun entry => entry.2.1

variable (floatText : UInt64 → String)

/-- What a predicate on `key` compares: the column, or else the property. -/
def heldUnder (row : EventRow) (key : String) : Option String :=
  (correlationOf row key).or ((row.property key).map (·.toDisplay floatText))

def Tombstone.hides (tombstone : Tombstone) (row : EventRow) : Bool :=
  if row.projectId ≠ tombstone.projectId then false
  else if tombstone.eventIds ≠ [] ∧ row.eventId ∉ tombstone.eventIds then false
  else if tombstone.exceptKinds.any (· = row.kind) then false
  else
    let carries := match tombstone.property with
      | none => true
      | some (key, value) =>
          match correlationOf row key with
          | some held => held = value
          | none =>
              match row.property key with
              | some held => held.toDisplay floatText = value
              | none => false
    let inRange := match tombstone.range with
      | none => true
      | some (start, stop) => ¬ (row.occurredAt < start ∨ row.occurredAt ≥ stop)
    carries && inRange

/-- `TombstoneSet::hides`. The set keeps its predicates by project and then by event,
by key and value, or by neither, and a row asks only those it could be named by. -/
def hiddenBy (tombstones : List Tombstone) (row : EventRow) : Bool :=
  tombstones.any fun tombstone =>
    tombstone.projectId = row.projectId &&
    (if tombstone.eventIds ≠ [] then decide (row.eventId ∈ tombstone.eventIds)
      else
        match tombstone.property with
        | some (key, value) => heldUnder floatText row key = some value
        | none => true) &&
    tombstone.hides floatText row

theorem hiddenBy_iff {floatText : UInt64 → String} {tombstones : List Tombstone} {row : EventRow} :
    hiddenBy floatText tombstones row = true ↔ ∃ t ∈ tombstones, t.hides floatText row = true := by
  simp only [hiddenBy, List.any_eq_true, Bool.and_eq_true, decide_eq_true_eq]
  refine exists_congr fun t => and_congr_right fun _ => ⟨fun named => named.2, fun hides => ⟨?_, hides⟩⟩
  unfold Tombstone.hides at hides
  split at hides
  · cases hides
  · rename_i project
    split at hides
    · cases hides
    · rename_i events
      split at hides
      · cases hides
      · refine ⟨(not_not.mp project).symm, ?_⟩
        split
        · rename_i named
          simp only [named, ne_eq, not_false_eq_true, true_and, not_not] at events
          simpa using events
        · dsimp only at hides
          cases property : t.property with
          | none => rfl
          | some pair =>
            obtain ⟨key, value⟩ := pair
            simp only [property, Bool.and_eq_true] at hides
            obtain ⟨carries, -⟩ := hides
            refine decide_eq_true ?_
            unfold heldUnder
            cases held : correlationOf row key with
            | some text => simpa [held] using carries
            | none =>
              cases other : row.property key with
              | some text => simpa [held, other] using carries
              | none => simp [held, other] at carries

end TallyOwl
