import TallyOwl.Store.Locator
import TallyOwl.Store.Tombstone

/-! What a row is indexed under and what it carries (`segmented.rs`). -/
namespace TallyOwl
open Lib Locate

variable (hash : Bytes → UInt64) (floatText : UInt64 → String)

def propertyColumn (key : String) : String := "p:" ++ key

/-- Every column and value `index_row` adds for a row, in its order. -/
def indexedValues (row : EventRow) : List (String × Bytes) :=
  ("event_id", row.eventId.bytes) ::
    ((row.traceId.toList.map fun id => ("trace_id", id.bytes)) ++
    (row.sessionId.toList.map fun id => ("session_id", textBytes id)) ++
    (row.requestId.toList.map fun id => ("request_id", textBytes id)) ++
    row.properties.map fun p => (propertyColumn p.1, textBytes (p.2.1.toDisplay floatText)))

def indexRow (locator : Locator) (row : EventRow) (segment : Id) : Locator :=
  (indexedValues floatText row).foldl
    (fun locator x => locator.add hash x.1 x.2 row.occurredAt segment) locator

def indexRows (locator : Locator) (segment : Id) (rows : List EventRow) : Locator :=
  rows.foldl (fun locator row => indexRow hash floatText locator row segment) locator

def rowCarries (row : EventRow) (column : String) (value : Bytes) : Bool :=
  match column.toList with
  | 'p' :: ':' :: key =>
      (row.property (.ofList key)).any fun held => textBytes (held.toDisplay floatText) = value
  | _ =>
      match column with
      | "event_id" => row.eventId.bytes = value
      | "batch_id" => row.batchId.bytes = value
      | "source_id" => row.sourceId.bytes = value
      | "trace_id" => row.traceId.any fun id => id.bytes = value
      | "session_id" => row.sessionId.any fun id => textBytes id = value
      | "request_id" => row.requestId.any fun id => textBytes id = value
      | "service_name" => row.serviceName.any fun name => textBytes name = value
      | "release" => row.release.any fun release => textBytes release = value
      | "kind" => textBytes row.kind = value
      | "name" => textBytes row.name = value
      | _ => false

section
variable {hash floatText}

theorem holds_indexRow {locator : Locator} {row : EventRow} {segment : Id} {e : Entry} :
    (indexRow hash floatText locator row segment).Holds e ↔ locator.Holds e ∨
      ∃ x ∈ indexedValues floatText row, e = Locator.entryOf hash x.1 x.2 segment := by
  unfold indexRow
  induction indexedValues floatText row generalizing locator with
  | nil => simp
  | cons x rest ih => rw [List.foldl_cons, ih, Locator.holds_add]; simp [or_assoc]

theorem holds_indexRows {locator : Locator} {rows : List EventRow} {segment : Id} {e : Entry} :
    (indexRows hash floatText locator segment rows).Holds e ↔ locator.Holds e ∨
      ∃ row ∈ rows, ∃ x ∈ indexedValues floatText row, e = Locator.entryOf hash x.1 x.2 segment := by
  unfold indexRows
  induction rows generalizing locator with
  | nil => simp
  | cons row rest ih => rw [List.foldl_cons, ih, holds_indexRow]; simp [or_assoc]

end
end TallyOwl
