import TallyOwl.Store.Cbor
import TallyOwl.Store.Locator

/-! Rows as canonical CBOR, for the append log (`row_codec.rs`). A property travels as
its type name and its exact rendered form. -/
namespace TallyOwl.RowCodec
open Lib Cbor Locate List OrderedMap

def parseDigits (chars : List Char) : Option Nat :=
  if chars ≠ [] ∧ chars.all Char.isDigit then some (Nat.ofDigitChars 10 chars 0) else none

/-- `str::parse::<u64>`. -/
def parseU64 (text : String) : Option Nat :=
  (match text.toList with
    | '+' :: rest => parseDigits rest
    | chars => parseDigits chars).filter fun n => n < 2 ^ 64

def parseSigned : List Char → Option Int
  | '-' :: rest => (parseDigits rest).map fun n : Nat => -(n : Int)
  | '+' :: rest => (parseDigits rest).map Int.ofNat
  | chars => (parseDigits chars).map Int.ofNat

/-- `str::parse::<i64>`. -/
def parseI64 (text : String) : Option Int :=
  (match text.toList with
    | '-' :: rest => (parseDigits rest).map fun n : Nat => -(n : Int)
    | '+' :: rest => (parseDigits rest).map Int.ofNat
    | chars => (parseDigits chars).map Int.ofNat).filter fun n => decide (InI64 n)

def hexDigit (c : Char) : Option Nat :=
  if '0' ≤ c ∧ c ≤ '9' then some (c.toNat - '0'.toNat)
  else if 'a' ≤ c ∧ c ≤ 'f' then some (c.toNat - 'a'.toNat + 10)
  else if 'A' ≤ c ∧ c ≤ 'F' then some (c.toNat - 'A'.toNat + 10)
  else none

/-- `u8::from_str_radix` on two characters, which takes a plus sign in front. -/
def hexByte (high low : Char) : Option UInt8 :=
  if high = '+' then (hexDigit low).map UInt8.ofNat
  else do
    let h ← hexDigit high
    let l ← hexDigit low
    some (UInt8.ofNat (16 * h + l))

def fromHexChars : List Char → Option Bytes
  | [] => some []
  | [_] => none
  | high :: low :: rest => do
      let byte ← hexByte high low
      let bytes ← fromHexChars rest
      some (byte :: bytes)

def fromHex (text : String) : Option Bytes := fromHexChars text.toList

def rowFormatVersion : Nat := 1

def typeName : PropertyValue → String
  | .null => "null"
  | .boolean _ => "boolean"
  | .integer _ => "integer"
  | .unsigned _ => "unsigned"
  | .float _ => "float"
  | .decimal _ => "decimal"
  | .text _ => "text"
  | .bytes _ => "bytes"

section
variable (floatText : UInt64 → String)

def propertyToCbor (value : PropertyValue) (origin : String) : Value :=
  .array [.text (typeName value), .text (value.toDisplay floatText), .text origin]

def rowFields (row : EventRow) : MapBuilder :=
  (∅ : MapBuilder)
    |>.put "ev" (.bytes row.eventId.bytes)
    |>.put "ba" (.bytes row.batchId.bytes)
    |>.put "ws" (.bytes row.workspaceId.bytes)
    |>.put "pr" (.bytes row.projectId.bytes)
    |>.put "so" (.bytes row.sourceId.bytes)
    |>.put "k" (.text row.kind)
    |>.put "n" (.text row.name)
    |>.put "occ" (.integer row.occurredAt)
    |>.put "rec" (.integer row.receivedAt)
    |>.put "com" (.integer row.committedAt)
    |>.putSome "se" (row.sessionId.map .text)
    |>.putSome "rq" (row.requestId.map .text)
    |>.putSome "tr" (row.traceId.map fun id => .bytes id.bytes)
    |>.putSome "sv" (row.serviceName.map .text)
    |>.putSome "re" (row.release.map .text)
    |>.put "p" (.map (row.properties.map fun p => (p.1, propertyToCbor floatText p.2.1 p.2.2)))

def rowToCbor (row : EventRow) : Value := (rowFields floatText row).build

def encodeRows (rows : List EventRow) : Bytes :=
  encode (((∅ : MapBuilder).put "v" (.unsigned rowFormatVersion)).put "rows"
    (.array (rows.map (rowToCbor floatText)))).build

end

section
variable (parseFloat : String → Option UInt64)

def couldNotBeRead (what : String) : String := s!"A stored {what} could not be read."

def parseValue (typeName rendered : String) : Except String PropertyValue :=
  let number {α : Type} (what : String) (value : Option α) : Except String α :=
    match value with
    | some v => .ok v
    | none => .error (couldNotBeRead what)
  match typeName with
  | "null" => .ok .null
  | "boolean" => .ok (.boolean (rendered = "true"))
  | "integer" => (number "number" (parseI64 rendered)).map .integer
  | "unsigned" => (number "number" (parseU64 rendered)).map .unsigned
  | "float" => (number "number" (parseFloat rendered)).map .float
  | "decimal" => .ok (.decimal rendered)
  | "bytes" => (number "value" (fromHex rendered)).map .bytes
  | _ => .ok (.text rendered)

def idField (value : Value) (name : String) : Except String Id :=
  match (value.field name).bind Value.asBytes with
  | some bytes =>
      if bytes.length = 16 then .ok (Id.ofBytes bytes)
      else .error "A stored item is missing an identifier it needs."
  | none => .error "A stored item is missing an identifier it needs."

def textField (value : Value) (name : String) : Option String :=
  (value.field name).bind Value.asText

def timeField (value : Value) (name : String) : Int :=
  ((value.field name).bind Value.asInteger).getD 0

def traceField (value : Value) : Option Id :=
  ((value.field "tr").bind Value.asBytes).bind fun bytes =>
    if bytes.length = 16 then some (Id.ofBytes bytes) else none

def propertyFromCbor (key : String) (entry : Value) :
    Except String (String × PropertyValue × String) :=
  match entry.asArray with
  | none => .error "A stored property could not be read."
  | some parts => do
      let text (i : Nat) (other : String) : String := ((parts[i]?).bind Value.asText).getD other
      let value ← parseValue parseFloat (text 0 "text") (text 1 "")
      .ok (key, value, text 2 "client")

def rowFromCbor (value : Value) : Except String EventRow := do
  let eventId ← idField value "ev"
  let batchId ← idField value "ba"
  let workspaceId ← idField value "ws"
  let projectId ← idField value "pr"
  let sourceId ← idField value "so"
  let properties ← match (value.field "p").bind Value.asMap with
    | some entries => entries.mapM fun e => propertyFromCbor parseFloat e.1 e.2
    | none => .ok []
  .ok {
    eventId, batchId, workspaceId, projectId, sourceId
    kind := (textField value "k").getD ""
    name := (textField value "n").getD ""
    occurredAt := timeField value "occ"
    receivedAt := timeField value "rec"
    committedAt := timeField value "com"
    sessionId := textField value "se"
    requestId := textField value "rq"
    traceId := traceField value
    serviceName := textField value "sv"
    release := textField value "re"
    properties }

def differentVersion (version : Nat) : String :=
  "This stored batch was written by a different version of TallyOwl and this one cannot " ++
  s!"read it. It says version {version}, and this software reads version {rowFormatVersion}."

def decodeRows (bytes : Bytes) : Except String (List EventRow) :=
  match decode bytes with
  | .error e => .error s!"A stored batch could not be read. {e.display}"
  | .ok value =>
      let version := ((value.field "v").bind Value.asUnsigned).getD 0
      if version ≠ rowFormatVersion then .error (differentVersion version)
      else
        match (value.field "rows").bind Value.asArray with
        | none => .error "A stored batch holds no items."
        | some rows => rows.mapM (rowFromCbor parseFloat)

end
theorem parseDigits_toDigits (n : Nat) : parseDigits (Nat.toDigits 10 n) = some n := by
  have digits : (Nat.toDigits 10 n).all Char.isDigit = true := all_eq_true.mpr fun c inside =>
    Nat.isDigit_of_mem_toDigits (by omega) (by omega) inside
  rw [parseDigits, if_pos ⟨Nat.toDigits_ne_nil, digits⟩,
    Nat.ofDigitChars_toDigits (by omega) (by omega)]

theorem toDigits_unsigned (n : Nat) (c : Char) (rest : List Char)
    (starts : Nat.toDigits 10 n = c :: rest) : c ≠ '+' ∧ c ≠ '-' := by
  have digit : c.isDigit = true := Nat.isDigit_of_mem_toDigits (b := 10) (n := n) (by omega) (by omega)
    (by rw [starts]; exact mem_cons_self)
  constructor <;> rintro rfl <;> simp at digit

theorem parseU64_toString {n : Nat} (fits : n < 2 ^ 64) : parseU64 (toString n) = some n := by
  have chars : (toString n).toList = Nat.toDigits 10 n := by simp
  rw [parseU64, chars]
  split
  · rename_i rest starts
    exact absurd rfl (toDigits_unsigned n _ _ starts).1
  · rw [parseDigits_toDigits]
    simpa [Option.filter] using fits

theorem parseSigned_toString (n : Int) : parseSigned (toString n).toList = some n := by
  cases n with
  | ofNat m =>
    have chars : (toString (Int.ofNat m)).toList = Nat.toDigits 10 m := by
      show (toString m).toList = _
      simp
    rw [chars]
    unfold parseSigned
    split
    · rename_i rest starts
      exact absurd rfl (toDigits_unsigned m _ _ starts).2
    · rename_i rest _ starts
      exact absurd rfl (toDigits_unsigned m _ _ starts).1
    · rw [parseDigits_toDigits]
      rfl
  | negSucc m =>
    have chars : (toString (Int.negSucc m)).toList = '-' :: Nat.toDigits 10 (m + 1) := by
      show ("-" ++ toString (m + 1)).toList = _
      simp
    rw [chars, parseSigned, parseDigits_toDigits]
    rfl

theorem parseI64_toString {n : Int} (fits : InI64 n) : parseI64 (toString n) = some n := by
  show (parseSigned (toString n).toList).filter (fun n => decide (InI64 n)) = _
  rw [parseSigned_toString]
  simp [fits]

theorem hexDigit_digitChar {n : Nat} (small : n < 16) : hexDigit (Nat.digitChar n) = some n ∧ Nat.digitChar n ≠ '+' := by
  have all : ∀ n : Fin 16, hexDigit (Nat.digitChar n.val) = some n.val ∧ Nat.digitChar n.val ≠ '+' := by
    decide
  exact all ⟨n, small⟩

theorem hexByte_digitChars (b : UInt8) : hexByte (b.toNat / 16).digitChar (b.toNat % 16).digitChar = some b := by
  have bound := b.toNat_lt
  obtain ⟨high, sign⟩ := @hexDigit_digitChar (b.toNat / 16) (by omega)
  have low := (@hexDigit_digitChar (b.toNat % 16) (by omega)).1
  have whole : 16 * (b.toNat / 16) + b.toNat % 16 = b.toNat := by omega
  simp only [hexByte, if_neg sign, high, low, Option.bind_eq_bind, Option.bind_some, whole,
    UInt8.ofNat_toNat]

theorem fromHex_hex (bytes : Bytes) : fromHex (hex bytes) = some bytes := by
  rw [fromHex, hex, String.toList_ofList]
  induction bytes with
  | nil => rfl
  | cons b bytes ih => simp [fromHexChars, hexByte_digitChars, ih]

def TextFits (text : String) : Prop := (textBytes text).length < 2 ^ 64

section
variable (floatText : UInt64 → String) (parseFloat : String → Option UInt64)

def ValueFits : PropertyValue → Prop
  | .integer v => InI64 v
  | .unsigned v => v < 2 ^ 64
  | _ => True

/-- What the types of a row hold: a text is shorter than the address space, a moment
is an `i64`, and properties are in key order. -/
structure RowFits (row : EventRow) : Prop where
  kind : TextFits row.kind
  name : TextFits row.name
  occurredAt : InI64 row.occurredAt
  receivedAt : InI64 row.receivedAt
  committedAt : InI64 row.committedAt
  sessionId : ∀ text, row.sessionId = some text → TextFits text
  requestId : ∀ text, row.requestId = some text → TextFits text
  serviceName : ∀ text, row.serviceName = some text → TextFits text
  release : ∀ text, row.release = some text → TextFits text
  properties : row.properties.length < 2 ^ 64
  ascending : row.properties.Pairwise fun a b => a.1 < b.1
  property : ∀ p ∈ row.properties, TextFits p.1 ∧ TextFits p.2.2 ∧ ValueFits p.2.1 ∧
    TextFits (p.2.1.toDisplay floatText)

instance (text : String) : Decidable (TextFits text) :=
  inferInstanceAs (Decidable (_ < _))

instance (value : PropertyValue) : Decidable (ValueFits value) :=
  match value with
  | .integer v => inferInstanceAs (Decidable (InI64 v))
  | .unsigned v => inferInstanceAs (Decidable (v < 2 ^ 64))
  | .null | .boolean _ | .float _ | .decimal _ | .text _ | .bytes _ =>
      inferInstanceAs (Decidable True)

instance (row : EventRow) : Decidable (RowFits floatText row) :=
  decidable_of_iff
    (TextFits row.kind ∧ TextFits row.name ∧ InI64 row.occurredAt ∧ InI64 row.receivedAt ∧
      InI64 row.committedAt ∧ (∀ text ∈ row.sessionId, TextFits text) ∧
      (∀ text ∈ row.requestId, TextFits text) ∧ (∀ text ∈ row.serviceName, TextFits text) ∧
      (∀ text ∈ row.release, TextFits text) ∧ row.properties.length < 2 ^ 64 ∧
      (row.properties.Pairwise fun a b => a.1 < b.1) ∧ ∀ p ∈ row.properties, TextFits p.1 ∧
        TextFits p.2.2 ∧ ValueFits p.2.1 ∧ TextFits (p.2.1.toDisplay floatText))
    ⟨fun ⟨a, b, c, d, e, f, g, h, i, j, k, l⟩ => ⟨a, b, c, d, e, f, g, h, i, j, k, l⟩,
      fun ⟨a, b, c, d, e, f, g, h, i, j, k, l⟩ => ⟨a, b, c, d, e, f, g, h, i, j, k, l⟩⟩

def replayedValue : PropertyValue → PropertyValue
  | .float bits => .float ((parseFloat (floatText bits)).getD bits)
  | value => value

def replayed (row : EventRow) : EventRow :=
  { row with properties := row.properties.map fun p =>
      (p.1, replayedValue floatText parseFloat p.2.1, p.2.2) }

def FloatReads (value : PropertyValue) : Prop :=
  ∀ bits, value = .float bits → (parseFloat (floatText bits)).isSome

variable {floatText parseFloat}

theorem parseValue_toDisplay {value : PropertyValue} (number : FloatReads floatText parseFloat value)
    (fits : ValueFits value) : parseValue parseFloat (typeName value) (value.toDisplay floatText) =
      .ok (replayedValue floatText parseFloat value) := by
  cases value with
  | null => rfl
  | boolean v => cases v <;> simp [parseValue, typeName, PropertyValue.toDisplay, replayedValue]
  | integer v =>
    simp only [parseValue, typeName, PropertyValue.toDisplay, parseI64_toString fits]
    rfl
  | unsigned v =>
    simp only [parseValue, typeName, PropertyValue.toDisplay, parseU64_toString fits]
    rfl
  | float bits =>
    obtain ⟨back, read⟩ := Option.isSome_iff_exists.mp (number bits rfl)
    simp [parseValue, typeName, PropertyValue.toDisplay, replayedValue, read, Except.map]
  | decimal v => rfl
  | text v => rfl
  | bytes v =>
    simp [parseValue, typeName, PropertyValue.toDisplay, replayedValue, fromHex_hex, Except.map]

theorem propertyFromCbor_propertyToCbor {value : PropertyValue}
    (number : FloatReads floatText parseFloat value) (fits : ValueFits value) (key origin : String) :
    propertyFromCbor parseFloat key (propertyToCbor floatText value origin) =
      .ok (key, replayedValue floatText parseFloat value, origin) := by
  simp [propertyFromCbor, propertyToCbor, Value.asArray, Value.asText, parseValue_toDisplay number fits,
    bind, Except.bind]

theorem mapM_ok {α β ε : Type} {f : α → Except ε β} {g : α → β} {xs : List α}
    (each : ∀ x ∈ xs, f x = .ok (g x)) : xs.mapM f = .ok (xs.map g) := by
  induction xs with
  | nil => rfl
  | cons x xs ih =>
    rw [mapM_cons, each x mem_cons_self,
      ih fun y inside => each y (mem_cons_of_mem _ inside)]
    rfl

theorem field_build (entries : MapBuilder) (name : String) :
    (MapBuilder.build entries).field name = entries.get? name := rfl

theorem get?_put (entries : MapBuilder) (key name : String) (value : Value) :
    (entries.put key value).get? name = if name = key then some value else entries.get? name :=
  get?_insert entries key name value

theorem get?_putSome (entries : MapBuilder) (key name : String) (value : Option Value) :
    (entries.putSome key value).get? name = if name = key then value <|> entries.get? key else entries.get? name := by
  cases value with
  | none =>
    simp only [MapBuilder.putSome, Option.orElse_eq_orElse, Option.orElse_none]
    split
    · rename_i same
      rw [same]
    · rfl
  | some v => simp [MapBuilder.putSome, get?_put]

theorem get?_empty (name : String) : (∅ : MapBuilder).get? name = none := rfl

theorem asInteger_integer {v : Int} (fits : InI64 v) : (Value.integer v).asInteger = some v := by
  unfold Value.integer
  unfold InI64 at fits
  split
  · rfl
  · simp only [Value.asInteger]
    rw [if_pos (by omega)]
    congr 1
    omega

variable {row : EventRow}

theorem rowFromCbor_rowToCbor (numbers : ∀ p ∈ row.properties, FloatReads floatText parseFloat p.2.1)
    (fits : RowFits floatText row) :
    rowFromCbor parseFloat (rowToCbor floatText row) = .ok (replayed floatText parseFloat row) := by
  have field : ∀ name, (rowToCbor floatText row).field name = (rowFields floatText row).get? name :=
    fun name => rfl
  have properties : (row.properties.map fun p => (p.1, propertyToCbor floatText p.2.1 p.2.2)).mapM
      (fun e => propertyFromCbor parseFloat e.1 e.2) =
        .ok (row.properties.map fun p => (p.1, replayedValue floatText parseFloat p.2.1, p.2.2)) := by
    rw [mapM_map]
    exact mapM_ok fun p inside =>
      propertyFromCbor_propertyToCbor (numbers p inside) (fits.property p inside).2.2.1 p.1 p.2.2
  have ids : ∀ name (id : Id), (rowFields floatText row).get? name = some (.bytes id.bytes) →
      idField (rowToCbor floatText row) name = .ok id := by
    intro name id found
    simp [idField, field, found, Value.asBytes]
  have texts : ∀ name text, (rowFields floatText row).get? name = Option.map Value.text text →
      textField (rowToCbor floatText row) name = text := by
    intro name text found
    cases text <;> simp [textField, field, found, Value.asText]
  have times : ∀ name moment, InI64 moment →
      (rowFields floatText row).get? name = some (.integer moment) →
      timeField (rowToCbor floatText row) name = moment := by
    intro name moment inside found
    simp [timeField, field, found, asInteger_integer inside]
  have trace : traceField (rowToCbor floatText row) = row.traceId := by
    have found : (rowFields floatText row).get? "tr" = row.traceId.map fun id => .bytes id.bytes := by
      simp [rowFields, get?_put, get?_putSome, get?_empty]
    cases some : row.traceId <;> simp [traceField, field, found, some, Value.asBytes]
  have held : (rowFields floatText row).get? "p" =
      some (.map (row.properties.map fun p => (p.1, propertyToCbor floatText p.2.1 p.2.2))) := by
    simp [rowFields, get?_put]
  rw [rowFromCbor, ids "ev" row.eventId (by simp [rowFields, get?_put, get?_putSome]),
    ids "ba" row.batchId (by simp [rowFields, get?_put, get?_putSome]),
    ids "ws" row.workspaceId (by simp [rowFields, get?_put, get?_putSome]),
    ids "pr" row.projectId (by simp [rowFields, get?_put, get?_putSome]),
    ids "so" row.sourceId (by simp [rowFields, get?_put, get?_putSome]),
    texts "k" (some row.kind) (by simp [rowFields, get?_put, get?_putSome]),
    texts "n" (some row.name) (by simp [rowFields, get?_put, get?_putSome]),
    texts "se" row.sessionId (by simp [rowFields, get?_put, get?_putSome, get?_empty]),
    texts "rq" row.requestId (by simp [rowFields, get?_put, get?_putSome, get?_empty]),
    texts "sv" row.serviceName (by simp [rowFields, get?_put, get?_putSome, get?_empty]),
    texts "re" row.release (by simp [rowFields, get?_put, get?_putSome, get?_empty]),
    times "occ" row.occurredAt fits.occurredAt (by simp [rowFields, get?_put, get?_putSome]),
    times "rec" row.receivedAt fits.receivedAt (by simp [rowFields, get?_put, get?_putSome]),
    times "com" row.committedAt fits.committedAt (by simp [rowFields, get?_put, get?_putSome]),
    trace, field, held]
  simp [bind, Except.bind, Value.asMap, properties, replayed]

/-- Every entry of a map under construction fits `n` levels down, and it holds at most
`count` of them. -/
structure Holds (n count : Nat) (entries : MapBuilder) : Prop where
  few : entries.entries.length ≤ count
  each : ∀ e ∈ entries.entries, TextFits e.1 ∧ e.2.Fits n

theorem Holds.empty (n : Nat) : Holds n 0 ∅ := ⟨by simp, by simp⟩

variable {n count : Nat} {entries : MapBuilder}

theorem Holds.put (holds : Holds n count entries)
    {key : String} {value : Value} (text : TextFits key) (fits : value.Fits n) :
    Holds n (count + 1) (entries.put key value) := by
  refine ⟨(length_insertEntry_le key value entries.entries).trans (by have := holds.few; omega), ?_⟩
  intro e inside
  rcases mem_insert.mp inside with rfl | ⟨old, -⟩
  · exact ⟨text, fits⟩
  · exact holds.each e old

theorem Holds.putSome (holds : Holds n count entries) {key : String} {value : Option Value} (text : TextFits key)
    (fits : ∀ v, value = some v → v.Fits n) : Holds n (count + 1) (entries.putSome key value) := by
  cases value with
  | none => exact ⟨holds.few.trans (by omega), holds.each⟩
  | some v => exact holds.put text (fits v rfl)

theorem Holds.build (holds : Holds n count entries) (few : count < 2 ^ 64) : (MapBuilder.build entries).Fits (n + 1) :=
  ⟨Nat.lt_of_le_of_lt holds.few few, entries.ascending, holds.each⟩

theorem fits_id (n : Nat) (id : Id) : (Value.bytes id.bytes).Fits n := by
  simp [Value.Fits]

theorem fits_integer {n : Nat} {v : Int} (fits : InI64 v) : (Value.integer v).Fits n := by
  unfold InI64 at fits
  unfold Value.integer
  split
  · simp only [Value.Fits]
    omega
  · simp only [Value.Fits]
    omega

theorem fits_text {n : Nat} {text : String} (fits : TextFits text) : (Value.text text).Fits n := by
  rwa [Value.Fits]

theorem fits_rowToCbor (fits : RowFits floatText row) (n : Nat) : (rowToCbor floatText row).Fits (n + 3) := by
  have texts : ∀ (o : Option String) v, (∀ text, o = some text → TextFits text) →
      o.map Value.text = some v → v.Fits (n + 2) := by
    intro o v each found
    obtain ⟨text, here, rfl⟩ := Option.map_eq_some_iff.mp found
    exact fits_text (each text here)
  have properties : (Value.map (row.properties.map fun p =>
      (p.1, propertyToCbor floatText p.2.1 p.2.2))).Fits (n + 2) := by
    refine ⟨by simpa using fits.properties, pairwise_map.mpr fits.ascending, ?_⟩
    intro e inside
    obtain ⟨p, there, rfl⟩ := mem_map.mp inside
    obtain ⟨key, origin, -, display⟩ := fits.property p there
    refine ⟨key, by simp, ?_⟩
    intro item member
    simp only [mem_cons, not_mem_nil, or_false] at member
    have name : TextFits (typeName p.2.1) := by
      cases p.2.1 <;> simp [typeName, TextFits, textBytes] <;> decide
    rcases member with rfl | rfl | rfl
    · exact fits_text name
    · exact fits_text display
    · exact fits_text origin
  have key : ∀ name ∈ ["ev", "ba", "ws", "pr", "so", "k", "n", "occ", "rec", "com", "se", "rq",
      "tr", "sv", "re", "p"], TextFits name := by
    unfold TextFits
    decide
  have trace : ∀ v, (row.traceId.map fun id => Value.bytes id.bytes) = some v → v.Fits (n + 2) := by
    intro v found
    obtain ⟨id, -, rfl⟩ := Option.map_eq_some_iff.mp found
    exact fits_id _ id
  refine @Holds.build (n + 2) 16 _ ?_ (by omega)
  exact Holds.empty (n + 2)
    |>.put (key _ (by simp)) (fits_id _ _)
    |>.put (key _ (by simp)) (fits_id _ _)
    |>.put (key _ (by simp)) (fits_id _ _)
    |>.put (key _ (by simp)) (fits_id _ _)
    |>.put (key _ (by simp)) (fits_id _ _)
    |>.put (key _ (by simp)) (fits_text fits.kind)
    |>.put (key _ (by simp)) (fits_text fits.name)
    |>.put (key _ (by simp)) (fits_integer fits.occurredAt)
    |>.put (key _ (by simp)) (fits_integer fits.receivedAt)
    |>.put (key _ (by simp)) (fits_integer fits.committedAt)
    |>.putSome (key _ (by simp)) (fun v => texts _ v fits.sessionId)
    |>.putSome (key _ (by simp)) (fun v => texts _ v fits.requestId)
    |>.putSome (key _ (by simp)) trace
    |>.putSome (key _ (by simp)) (fun v => texts _ v fits.serviceName)
    |>.putSome (key _ (by simp)) (fun v => texts _ v fits.release)
    |>.put (key _ (by simp)) properties

theorem decodeRows_encodeRows_of_reads {rows : List EventRow}
    (numbers : ∀ row ∈ rows, ∀ p ∈ row.properties, FloatReads floatText parseFloat p.2.1)
    (many : rows.length < 2 ^ 64) (fits : ∀ row ∈ rows, RowFits floatText row) :
    decodeRows parseFloat (encodeRows floatText rows) = .ok (rows.map (replayed floatText parseFloat)) := by
  have key : TextFits "v" ∧ TextFits "rows" := by
    unfold TextFits
    decide
  have fitting : Value.Fits maxDepth (((∅ : MapBuilder).put "v" (.unsigned rowFormatVersion)).put
      "rows" (.array (rows.map (rowToCbor floatText)))).build := by
    refine @Holds.build 31 2 _ (Holds.empty 31 |>.put key.1 ?_ |>.put key.2 ⟨?_, ?_⟩) (by omega)
    · simp [Value.Fits, rowFormatVersion]
    · simpa using many
    · intro value inside
      obtain ⟨row, there, rfl⟩ := mem_map.mp inside
      exact fits_rowToCbor (fits row there) 27
  have each : (rows.map (rowToCbor floatText)).mapM (rowFromCbor parseFloat) =
      .ok (rows.map (replayed floatText parseFloat)) := by
    rw [mapM_map]
    exact mapM_ok fun row inside => rowFromCbor_rowToCbor (numbers row inside) (fits row inside)
  rw [decodeRows, encodeRows, decode_encode fitting]
  simp only [field_build, get?_put, get?_empty]
  simp [Value.asUnsigned, Value.asArray, each]

theorem decodeRows_encodeRows (numbers : ∀ bits, (parseFloat (floatText bits)).isSome)
    {rows : List EventRow} (many : rows.length < 2 ^ 64) (fits : ∀ row ∈ rows, RowFits floatText row) :
    decodeRows parseFloat (encodeRows floatText rows) = .ok (rows.map (replayed floatText parseFloat)) :=
  decodeRows_encodeRows_of_reads (fun _ _ _ _ bits _ => numbers bits) many fits

def NoNaN (row : EventRow) : Prop :=
  ∀ p ∈ row.properties, ∀ bits, p.2.1 = .float bits → ¬IsNaN bits

theorem replayed_of_noNaN (exact : ∀ bits, ¬IsNaN bits → parseFloat (floatText bits) = some bits)
    (clean : NoNaN row) : replayed floatText parseFloat row = row := by
  have value : ∀ p ∈ row.properties,
      (p.1, replayedValue floatText parseFloat p.2.1, p.2.2) = p := by
    rintro ⟨key, value, origin⟩ inside
    cases value with
    | float bits =>
      have back := exact bits (clean _ inside bits rfl)
      simp only [replayedValue, back, Option.getD_some]
    | _ => rfl
  have properties := map_congr_left value
  rw [map_id'] at properties
  rw [replayed, properties]

/-- The log replays what it was given, property by property and bit by bit. -/
theorem log_replays_rows (exact : ∀ bits, ¬IsNaN bits → parseFloat (floatText bits) = some bits)
    {rows : List EventRow} (many : rows.length < 2 ^ 64)
    (fits : ∀ row ∈ rows, RowFits floatText row) (clean : ∀ row ∈ rows, NoNaN row) :
    decodeRows parseFloat (encodeRows floatText rows) = .ok rows := by
  have reads : ∀ row ∈ rows, ∀ p ∈ row.properties, FloatReads floatText parseFloat p.2.1 := by
    intro row there p inside bits float
    rw [exact bits (clean row there p inside bits float), Option.isSome_some]
  have same : rows.map (replayed floatText parseFloat) = rows.map id :=
    List.map_congr_left fun row there => replayed_of_noNaN exact (clean row there)
  rw [decodeRows_encodeRows_of_reads reads many fits, same, List.map_id]

/-- Floats whose text is "0.5" for a half and the number of their bits for any other. -/
def plainText (bits : UInt64) : String :=
  if bits = 0x3fe0000000000000 then "0.5" else toString bits.toNat

def plainParse (text : String) : Option UInt64 :=
  if text = "0.5" then some 0x3fe0000000000000 else (parseU64 text).map UInt64.ofNat

theorem plainParse_plainText (bits : UInt64) : plainParse (plainText bits) = some bits := by
  unfold plainText
  split
  · rename_i half
    rw [half]
    rfl
  · have digits : toString bits.toNat ≠ "0.5" := by
      intro same
      have read := parseU64_toString bits.toNat_lt
      have point : parseU64 "0.5" = none := by decide
      rw [same, point] at read
      cases read
    rw [plainParse, if_neg digits, parseU64_toString bits.toNat_lt]
    simp

/-- A row with a property of every type, at a moment before the epoch. -/
def everyTypeRow : EventRow where
  eventId := 1
  batchId := 2
  workspaceId := 3
  projectId := 4
  sourceId := 5
  kind := "event"
  name := "checkout-started"
  occurredAt := -(2 ^ 63)
  receivedAt := 2 ^ 63 - 1
  committedAt := 0
  sessionId := some "s-1"
  requestId := none
  traceId := some 7
  serviceName := some "checkout"
  release := none
  properties := [
    ("attempts", .unsigned 4, "driver"), ("count", .integer (-3), "client"),
    ("enabled", .boolean true, "client"), ("nothing", .null, "client"),
    ("ratio", .float 0x3fe0000000000000, "client"), ("raw", .bytes [1, 2, 255], "client"),
    ("region", .text "us-west2", "collector"), ("value", .decimal "19.99", "client")]

theorem log_replays_rows_every_type : decodeRows plainParse (encodeRows plainText [everyTypeRow, everyTypeRow]) =
      .ok [everyTypeRow, everyTypeRow] := by
  have fits : RowFits plainText everyTypeRow := by decide +kernel
  have clean : NoNaN everyTypeRow := by
    intro p inside bits float
    simp only [everyTypeRow, List.mem_cons, List.not_mem_nil, or_false] at inside
    rcases inside with rfl | rfl | rfl | rfl | rfl | rfl | rfl | rfl <;> cases float
    decide
  exact log_replays_rows (fun bits _ => plainParse_plainText bits) (by decide)
    (by simpa using fits) (by simpa using clean)

variable (floatText) in
/-- A row as the log and the lookups show it: each property by its type and its text. -/
def shown (row : EventRow) : EventRow × List (String × String × String × String) :=
  ({ row with properties := [] }, row.properties.map fun p =>
    (p.1, typeName p.2.1, p.2.1.toDisplay floatText, p.2.2))

theorem shown_replayed (same : ∀ bits back, parseFloat (floatText bits) = some back → floatText back = floatText bits)
    (row : EventRow) : shown floatText (replayed floatText parseFloat row) = shown floatText row := by
  have value : ∀ v, typeName (replayedValue floatText parseFloat v) = typeName v ∧
      (replayedValue floatText parseFloat v).toDisplay floatText = v.toDisplay floatText := by
    intro v
    cases v with
    | float bits =>
      refine ⟨rfl, ?_⟩
      simp only [replayedValue, PropertyValue.toDisplay]
      cases read : parseFloat (floatText bits) with
      | none => rfl
      | some back => exact same bits back read
    | _ => exact ⟨rfl, rfl⟩
  simp [shown, replayed, value, Function.comp_def]

end
end TallyOwl.RowCodec
