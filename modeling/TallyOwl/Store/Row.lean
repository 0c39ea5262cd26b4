import TallyOwl.Lib.Bytes

/-! One stored telemetry row (`row.rs`). A 16-byte identifier is the big-endian
number of its bytes, which orders as the bytes do. A moment is an `i64` of
milliseconds. The text of a float is the one its standard library writes, and a
parameter here. -/
namespace TallyOwl
open Lib

abbrev Id := Fin (2 ^ 128)

instance Id.neZero : NeZero (2 ^ 128) := inferInstance

instance Id.lawfulBEq : LawfulBEq Id := inferInstance

instance Id.lawfulBEq_pair : LawfulBEq (Id × Id) := inferInstance

def Id.bytes (id : Id) : Bytes := (leBytes 16 id.val).reverse

def Id.ofBytes (bytes : Bytes) : Id := Fin.ofNat (2 ^ 128) (leNat bytes.reverse)

@[simp] theorem Id.ofBytes_bytes (id : Id) : Id.ofBytes id.bytes = id := by
  have fits : id.val < 256 ^ 16 := by
    have bound := id.isLt
    norm_num at bound ⊢
    exact bound
  simp [Id.ofBytes, Id.bytes, leNat_leBytes 16 id.val fits]

@[simp] theorem Id.length_bytes (id : Id) : id.bytes.length = 16 := by
  simp [Id.bytes, length_leBytes]

def textBytes (text : String) : Bytes := text.toUTF8.data.toList

def hex (bytes : Bytes) : String :=
  .ofList (bytes.flatMap fun b => [Nat.digitChar (b.toNat / 16), Nat.digitChar (b.toNat % 16)])

/-- A float that is not a number: every exponent bit set and a mantissa bit. -/
def IsNaN (bits : UInt64) : Prop := 2047 * 2 ^ 52 < bits.toNat % 2 ^ 63

instance (bits : UInt64) : Decidable (IsNaN bits) := inferInstanceAs (Decidable (_ < _))

inductive PropertyValue where
  | null
  | boolean (v : Bool)
  | integer (v : Int)
  | unsigned (v : Nat)
  | float (bits : UInt64)
  | decimal (v : String)
  | text (v : String)
  | bytes (v : Bytes)
  deriving DecidableEq

def PropertyValue.toDisplay (floatText : UInt64 → String) : PropertyValue → String
  | .null => ""
  | .boolean v => if v then "true" else "false"
  | .integer v => toString v
  | .unsigned v => toString v
  | .float bits => floatText bits
  | .decimal v => v
  | .text v => v
  | .bytes v => hex v

structure EventRow where
  eventId : Id
  batchId : Id
  workspaceId : Id
  projectId : Id
  sourceId : Id
  kind : String
  name : String
  occurredAt : Int
  receivedAt : Int
  committedAt : Int
  sessionId : Option String
  requestId : Option String
  traceId : Option Id
  serviceName : Option String
  release : Option String
  properties : List (String × PropertyValue × String)
  deriving DecidableEq

def EventRow.new (eventId : Id) (kind name : String) (occurredAt : Int) : EventRow where
  eventId := eventId
  batchId := 0
  workspaceId := 0
  projectId := 0
  sourceId := 0
  kind := kind
  name := name
  occurredAt := occurredAt
  receivedAt := occurredAt
  committedAt := 0
  sessionId := none
  requestId := none
  traceId := none
  serviceName := none
  release := none
  properties := []

end TallyOwl
