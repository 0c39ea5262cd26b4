import TallyOwl.Store.RowCodec
import TallyOwl.Store.Segment.Page

/-! Rows as columns, and columns as rows (`segment/schema.rs`). A property key gives a
type column, an origin column, and one value column for each type it holds. -/
namespace TallyOwl.SegmentFormat
open Lib Format RowCodec

def propertyPrefix : String := "p:"

def typeSuffix : String := ":t"

def originSuffix : String := ":o"

/-- The value column of one property type. Text, decimal and bytes keep their exact
characters. -/
def valueSuffix (typeName : String) : String :=
  match typeName with
  | "boolean" => ":b"
  | "integer" => ":i"
  | "unsigned" => ":u"
  | "float" => ":f"
  | _ => ":s"

def columnName (key suffix : String) : String := propertyPrefix ++ key ++ suffix

def typeKey (name : String) : Option String :=
  let chars := name.toList
  if propertyPrefix.toList <+: chars then
    let rest := chars.drop 2
    if typeSuffix.toList <:+ rest then some (.ofList (rest.take (rest.length - 2))) else none
  else none

abbrev Columns := OrderedMap String Column

def propertyOf (row : EventRow) (key : String) : Option (PropertyValue × String) :=
  (row.properties.find? (·.1 = key)).map Prod.snd

section
variable (floatText : UInt64 → String) (rows : List EventRow)

/-- The columns every row has. An absent trace is stored as all zeroes. -/
def envelope : List (String × Column) :=
  [("event_id", .identifiers (rows.map EventRow.eventId)),
    ("batch_id", .identifiers (rows.map EventRow.batchId)),
    ("source_id", .identifiers (rows.map EventRow.sourceId)),
    ("kind", .text (rows.map fun r => some r.kind)),
    ("name", .text (rows.map fun r => some r.name)),
    ("occurred_at", .timestamps (rows.map EventRow.occurredAt)),
    ("received_at", .timestamps (rows.map EventRow.receivedAt)),
    ("committed_at", .timestamps (rows.map EventRow.committedAt)),
    ("session_id", .text (rows.map EventRow.sessionId)),
    ("request_id", .text (rows.map EventRow.requestId)),
    ("service_name", .text (rows.map EventRow.serviceName)),
    ("release", .text (rows.map EventRow.release)),
    ("trace_id", .identifiers (rows.map fun r => r.traceId.getD 0))]

def keysOf : List String := sortDedup (· ≤ ·) (rows.flatMap fun r => r.properties.map Prod.fst)

def typesOf (key : String) : List String :=
  sortDedup (· ≤ ·) (rows.filterMap fun r => (propertyOf r key).map fun p => typeName p.1)

def valueColumn (suffix : String) (values : List (Option PropertyValue)) : Column :=
  match suffix with
  | ":b" => .booleans (values.map fun v =>
      match v with
      | some (.boolean true) => true
      | _ => false)
  | ":i" => .integers (values.map fun v =>
      match v with
      | some (.integer n) => n
      | _ => 0)
  | ":u" => .unsigned (values.map fun v =>
      match v with
      | some (.unsigned n) => n
      | _ => 0)
  | ":f" => .floats (values.map fun v =>
      match v with
      | some (.float bits) => bits
      | _ => 0)
  | _ => .text (values.map fun v => v.map (PropertyValue.toDisplay floatText))

/-- The value of a key in a row, where its type goes to this column. -/
def valueUnder (key suffix : String) (row : EventRow) : Option PropertyValue :=
  (propertyOf row key).bind fun p => if valueSuffix (typeName p.1) = suffix then some p.1 else none

def keyColumns (key : String) : List (String × Column) :=
  (columnName key typeSuffix, .text (rows.map fun r => (propertyOf r key).map fun p => typeName p.1)) ::
    (columnName key originSuffix, .text (rows.map fun r => (propertyOf r key).map Prod.snd)) ::
      (sortDedup (· ≤ ·) ((typesOf rows key).map valueSuffix)).map fun suffix =>
        (columnName key suffix, valueColumn floatText suffix (rows.map (valueUnder key suffix)))

def toColumns : Columns :=
  (envelope rows ++ (keysOf rows).flatMap (keyColumns floatText rows)).foldl
    (fun columns c => columns.insert c.1 c.2) ∅

end

/-! Reading columns. -/

/-- `from_hex` on a text of a file: each two bytes are cut out of the text, which stops the
process where a cut falls inside a character, and the first pair that is no number ends
it. -/
def pairsOfHex : List Char → Checked FormatError (Option Bytes)
  | [] => .ok (some [])
  | [c] => if c.utf8Size = 2 then .ok none else .fault .range
  | high :: low :: rest =>
      if high.utf8Size = 2 then .ok none
      else if high.utf8Size ≠ 1 ∨ low.utf8Size ≠ 1 then .fault .range
      else
        match hexByte high low with
        | none => .ok none
        | some byte => do
            let bytes ← pairsOfHex rest
            .ok (bytes.map (byte :: ·))

def hexBytes (text : String) : Checked FormatError (Option Bytes) :=
  if (textBytes text).length % 2 = 0 then pairsOfHex text.toList else .ok none

def readValue (typeName : String) (column : Column) (index : Nat) :
    Checked FormatError (Option PropertyValue) :=
  match typeName, column with
  | "null", _ => .ok (some .null)
  | "boolean", .booleans v => .ok ((v[index]?).map .boolean)
  | "integer", .timestamps v | "integer", .integers v => .ok ((v[index]?).map .integer)
  | "unsigned", .unsigned v => .ok ((v[index]?).map .unsigned)
  | "float", .floats v => .ok ((v[index]?).map .float)
  | "decimal", .text v => .ok ((v[index]?).join.map .decimal)
  | "bytes", .text v =>
      match (v[index]?).join with
      | none => .ok none
      | some text => do
          let bytes ← hexBytes text
          .ok (bytes.map .bytes)
  | "text", .text v => .ok ((v[index]?).join.map .text)
  | _, _ => .ok none

section
variable (columns : Columns)

def identifiers (name : String) (index : Nat) : Id :=
  match columns.get? name with
  | some (.identifiers v) => (v[index]?).getD 0
  | _ => 0

def word (name : String) (index : Nat) : Option String :=
  match columns.get? name with
  | some (.text v) => (v[index]?).join
  | _ => none

def moment (name : String) (index : Nat) : Int :=
  match columns.get? name with
  | some (.timestamps v) => (v[index]?).getD 0
  | _ => 0

/-- The envelope of one row. A column that is not there is an absent value. -/
def bareRow (workspaceId projectId : Id) (index : Nat) : EventRow where
  eventId := identifiers columns "event_id" index
  batchId := identifiers columns "batch_id" index
  workspaceId := workspaceId
  projectId := projectId
  sourceId := identifiers columns "source_id" index
  kind := (word columns "kind" index).getD ""
  name := (word columns "name" index).getD ""
  occurredAt := moment columns "occurred_at" index
  receivedAt := moment columns "received_at" index
  committedAt := moment columns "committed_at" index
  sessionId := word columns "session_id" index
  requestId := word columns "request_id" index
  traceId :=
    let trace := identifiers columns "trace_id" index
    if trace ≠ 0 then some trace else none
  serviceName := word columns "service_name" index
  release := word columns "release" index
  properties := []

/-- What one row holds under a key, by the type its type column names. -/
def propertyAt (key : String) (typeName : Option String) (index : Nat) :
    Checked FormatError (Option (PropertyValue × String)) :=
  match typeName with
  | none => .ok none
  | some typeName =>
      match columns.get? (columnName key (valueSuffix typeName)) with
      | none => .ok none
      | some column => do
          let value ← readValue typeName column index
          .ok (value.map fun v => (v, (word columns (columnName key originSuffix) index).getD "client"))

def putProperty (key : String) (out : List EventRow) (index : Nat) :
    Option (PropertyValue × String) → List EventRow
  | none => out
  | some p => out.modify index fun row => { row with properties := insertEntry key p row.properties }

/-- Put the property of one key back on the rows that had it, from one row on. -/
def putKey (key : String) : (typeNames : List (Option String)) → (index : Nat) → List EventRow →
    Checked FormatError (List EventRow)
  | [], _, out => .ok out
  | typeName :: typeNames, index, out => do
      let property ← propertyAt columns key typeName index
      putKey key typeNames (index + 1) (putProperty key out index property)

def putKeys : List (String × Column) → List EventRow → Checked FormatError (List EventRow)
  | [], out => .ok out
  | (name, column) :: rest, out =>
      match typeKey name, column with
      | some key, .text typeNames => do
          let out ← putKey columns key typeNames 0 out
          putKeys rest out
      | _, _ => putKeys rest out

/-- Rebuild rows from columns. Room is made for as many rows as the directory lists, which
`backing` bytes of the file stand behind. -/
def toRows (rows : Nat) (workspaceId projectId : Id) (backing : Nat) :
    Checked FormatError (List EventRow) := do
  Checked.allocate rows backing
  putKeys columns columns.entries ((List.range rows).map (bareRow columns workspaceId projectId))

end

end TallyOwl.SegmentFormat
