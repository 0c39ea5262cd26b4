import TallyOwl.Store.Cbor
import TallyOwl.Store.Locator
import TallyOwl.Store.Segment.Varint

/-! Column pages (`segment/page.rs`): the six encodings, and the header, the null bitmap
and the compressed values of one page. The compressor and the checksum are outside crates
and parameters here. -/
namespace TallyOwl.SegmentFormat
open Lib Format Locate Cbor

inductive Column where
  | timestamps (values : List Int)
  | integers (values : List Int)
  | unsigned (values : List Nat)
  | floats (values : List UInt64)
  | booleans (values : List Bool)
  | identifiers (values : List Id)
  | text (values : List (Option String))
  | bytes (values : List (Option Bytes))
  deriving DecidableEq

inductive Encoding where
  | plainFixed
  | varint
  | varintDelta
  | offsetBytes
  | dictionary
  | splitPrefix
  deriving DecidableEq

def Encoding.number : Encoding → Nat
  | .plainFixed => 1
  | .varint => 2
  | .varintDelta => 3
  | .offsetBytes => 4
  | .dictionary => 5
  | .splitPrefix => 6

def Encoding.fromNumber : Nat → Option Encoding
  | 1 => some .plainFixed
  | 2 => some .varint
  | 3 => some .varintDelta
  | 4 => some .offsetBytes
  | 5 => some .dictionary
  | 6 => some .splitPrefix
  | _ => none

inductive Codec where
  | none
  | zstandard
  deriving DecidableEq

def Codec.number : Codec → Nat
  | .none => 0
  | .zstandard => 1

def Codec.fromNumber : Nat → Option Codec
  | 0 => some .none
  | 1 => some .zstandard
  | _ => Option.none

/-- The functions of outside crates that a segment is written and read with. -/
structure Crates where
  checksum : Bytes → UInt64
  /-- `zstd::encode_all`, at a level. -/
  compress : Nat → Bytes → Option Bytes
  /-- `zstd::bulk::decompress`, with room for so many bytes. -/
  decompress : Bytes → Nat → Option Bytes
  contentAddress : Bytes → Bytes
  floatText : UInt64 → String
  rowsUnder : (target measured rows : Nat) → Nat

def pageHeaderBytes : Nat := 24

def maxUncompressedPageBytes : Nat := 64 * 1024 * 1024

namespace Column

def length : Column → Nat
  | .timestamps v | .integers v => v.length
  | .unsigned v => v.length
  | .floats v => v.length
  | .booleans v => v.length
  | .identifiers v => v.length
  | .text v => v.length
  | .bytes v => v.length

/-- The rows from `start` up to `last`. -/
def slice (start last : Nat) : Column → Column
  | .timestamps v => .timestamps ((v.take last).drop start)
  | .integers v => .integers ((v.take last).drop start)
  | .unsigned v => .unsigned ((v.take last).drop start)
  | .floats v => .floats ((v.take last).drop start)
  | .booleans v => .booleans ((v.take last).drop start)
  | .identifiers v => .identifiers ((v.take last).drop start)
  | .text v => .text ((v.take last).drop start)
  | .bytes v => .bytes ((v.take last).drop start)

def encoding : Column → Encoding
  | .timestamps _ | .integers _ => .varintDelta
  | .unsigned _ => .varint
  | .floats _ | .booleans _ => .plainFixed
  | .identifiers _ => .splitPrefix
  | .text _ | .bytes _ => .offsetBytes

def level : Column → Nat
  | .floats _ => 3
  | _ => 1

def nulls : Column → List Bool
  | .text v => v.map Option.isNone
  | .bytes v => v.map Option.isNone
  | column => List.replicate column.length false

end Column

/-! Values. -/

def putDeltas : (previous : Int) → List Int → Bytes
  | _, [] => []
  | previous, value :: values => putVarint (zigzag (wrapI64 (value - previous))) ++ putDeltas value values

def byteOf (bits : List Bool) : UInt8 :=
  UInt8.ofNat (bits.foldr (fun bit rest => bit.toNat + 2 * rest) 0)

def packBits (bits : List Bool) : Bytes :=
  (List.range ((bits.length + 7) / 8)).map fun k => byteOf ((bits.drop (8 * k)).take 8)

def headOf (id : Id) : Int := asI64 (beNat (id.bytes.take 8))

def putRegion (values : List Bytes) : Bytes :=
  values.flatMap (fun bytes => putVarint bytes.length) ++ values.flatten

def encodeValues : Column → Bytes
  | .timestamps values | .integers values => putDeltas 0 values
  | .unsigned values => values.flatMap putVarint
  | .floats values => values.flatMap fun bits => putU64 bits.toNat
  | .booleans values => packBits values
  | .identifiers values => putDeltas 0 (values.map headOf) ++ values.flatMap fun id => id.bytes.drop 8
  | .text values => putRegion (values.map fun value => textBytes (value.getD ""))
  | .bytes values => putRegion (values.map fun value => value.getD [])

def damagedColumn (what : String) : FormatError :=
  .damaged s!"A stored column of {what} did not read back as what it claimed to be."

section
variable (bytes : Bytes)

def readDeltas : (rows start : Nat) → (previous : Int) → Checked FormatError (List Int × Nat)
  | 0, start, _ => .ok ([], start)
  | rows + 1, start, previous => do
      let (raw, next) ← getVarint bytes start
      let value := wrapI64 (previous + unzigzag raw)
      let (values, last) ← readDeltas rows next value
      .ok (value :: values, last)

def readVarints : (rows start : Nat) → Checked FormatError (List Nat)
  | 0, _ => .ok []
  | rows + 1, start => do
      let (raw, next) ← getVarint bytes start
      let values ← readVarints rows next
      .ok (raw :: values)

def readFloats : (rows index : Nat) → Checked FormatError (List UInt64)
  | 0, _ => .ok []
  | rows + 1, index => do
      let start ← Checked.word (index * 8)
      let found ← Checked.lift (slice bytes start 8)
      let values ← readFloats rows (index + 1)
      .ok (UInt64.ofNat (leNat found) :: values)

def bitOf (byte : UInt8) (k : Nat) : Bool := byte.toNat / 2 ^ k % 2 = 1

def readBooleans : (rows index : Nat) → Checked FormatError (List Bool)
  | 0, _ => .ok []
  | rows + 1, index => do
      let byte ← Checked.item bytes (index / 8)
      let values ← readBooleans rows (index + 1)
      .ok (bitOf byte (index % 8) :: values)

def readTails (start : Nat) : (heads : List Int) → (index : Nat) → Checked FormatError (List Id)
  | [], _ => .ok []
  | head :: heads, index => do
      let offset ← Checked.word (index * 8)
      let place ← Checked.word (start + offset)
      let tail ← Checked.lift (slice bytes place 8)
      let values ← readTails start heads (index + 1)
      .ok (Id.ofBytes (beBytes 8 (asU64 head) ++ tail) :: values)

/-- Every declared length with their sum, a checked addition, and where they end. -/
def readLengths : (rows start total : Nat) → Checked FormatError (List Nat × Nat × Nat)
  | 0, start, total => .ok ([], total, start)
  | rows + 1, start, total => do
      let (length, next) ← getVarint bytes start
      if 2 ^ 64 ≤ total + length then .fail (damagedColumn "text")
      else do
        let (lengths, sum, last) ← readLengths rows next (total + length)
        .ok (length :: lengths, sum, last)

def readTexts (nulls : List Bool) :
    (lengths : List Nat) → (start index : Nat) → Checked FormatError (List (Option String))
  | [], _, _ => .ok []
  | length :: lengths, start, index => do
      let last ← Checked.word (start + length)
      let raw ← Checked.part bytes start last
      if (nulls[index]?).getD false then do
        let values ← readTexts nulls lengths last (index + 1)
        .ok (none :: values)
      else
        match String.fromUTF8? ⟨raw.toArray⟩ with
        | none => .fail (damagedColumn "text")
        | some text => do
            let values ← readTexts nulls lengths last (index + 1)
            .ok (some text :: values)

/-- The values of a page. Room is made for its rows, which `backing` bytes of the page
stand behind. -/
def decodeValues (encoding : Encoding) (rows : Nat) (nulls : List Bool) (backing : Nat) :
    Checked FormatError Column := do
  match encoding with
  | .varintDelta =>
      Checked.allocate rows backing
      let (values, _) ← readDeltas bytes rows 0 0
      .ok (.timestamps values)
  | .varint =>
      Checked.allocate rows backing
      let values ← readVarints bytes rows 0
      .ok (.unsigned values)
  | .plainFixed =>
      -- a float is eight bytes and a boolean is one bit, so the byte count tells them apart
      let floats ← Checked.word (rows * 8)
      if bytes.length = floats then
        Checked.allocate rows backing
        let values ← readFloats bytes rows 0
        .ok (.floats values)
      else if bytes.length = (rows + 7) / 8 then
        Checked.allocate rows backing
        let values ← readBooleans bytes rows 0
        .ok (.booleans values)
      else .fail (damagedColumn "fixed-width values")
  | .splitPrefix =>
      Checked.allocate rows backing
      let (heads, start) ← readDeltas bytes rows 0 0
      let values ← readTails bytes start heads 0
      .ok (.identifiers values)
  | .offsetBytes =>
      Checked.allocate rows backing
      let (lengths, total, start) ← readLengths bytes rows 0 0
      let last ← Checked.word (start + total)
      if last > bytes.length then .fail (damagedColumn "text")
      else do
        let values ← readTexts bytes nulls lengths start 0
        .ok (.text values)
  | .dictionary => .fail (.unsupported
      "This stored data uses a form of compression this software does not know.")

end

section
variable (crates : Crates)

/-- The values as they are stored, and how: raw where compression gains nothing. -/
def storedValues (column : Column) : Codec × Bytes :=
  let encoded := encodeValues column
  if encoded.length < 64 then (.none, encoded)
  else
    match crates.compress column.level encoded with
    | some compressed =>
        if compressed.length < encoded.length then (.zstandard, compressed) else (.none, encoded)
    | none => (.none, encoded)

def writePage (column : Column) : Bytes :=
  let stored := storedValues crates column
  let checked := packBits column.nulls ++ stored.2
  putU32 checked.length ++ (putU16 column.encoding.number ++ (putU16 stored.1.number ++
    (putU32 column.length ++ (putU32 (encodeValues column).length ++
      (putU64 (crates.checksum checked).toNat ++ checked)))))

def unknownEncoding : FormatError := .unsupported
  "One column of this stored data uses a form this software does not know. The rest of the data is still readable."

def unknownCodec : FormatError := .unsupported
  "This stored data uses a form of compression this software does not know."

def pageDamaged : FormatError := .damaged
  "Part of the stored data did not read back as what it was written as. This answer would be missing rows, so we did not give one."

def expand (codec : Codec) (body : Bytes) (uncompressed : Nat) : Except FormatError Bytes :=
  match (match codec with
    | .none => some body
    | .zstandard => crates.decompress body uncompressed) with
  | none => .error (.damaged "Part of the stored data could not be expanded. It is damaged.")
  | some plain =>
      if plain.length ≠ uncompressed then
        .error (.damaged "Part of the stored data expanded to a different size than it claimed.")
      else .ok plain

structure PageContent where
  encoding : Encoding
  rows : Nat
  nulls : List Bool
  plain : Bytes
  backing : Nat

def pageContent (bytes : Bytes) (start : Nat) (verify : Bool) : Checked FormatError PageContent := do
  let length ← Checked.lift (getU32 bytes start)
  let encodingNumber ← Checked.lift (getU16 bytes (← Checked.word (start + 4)))
  let codecNumber ← Checked.lift (getU16 bytes (← Checked.word (start + 6)))
  let rows ← Checked.lift (getU32 bytes (← Checked.word (start + 8)))
  let uncompressed ← Checked.lift (getU32 bytes (← Checked.word (start + 12)))
  let checksum ← Checked.lift (getU64 bytes (← Checked.word (start + 16)))
  let encoding ← Checked.lift ((Encoding.fromNumber encodingNumber).elim (.error unknownEncoding) .ok)
  let codec ← Checked.lift ((Codec.fromNumber codecNumber).elim (.error unknownCodec) .ok)
  let bitmapBytes := (rows + 7) / 8
  let bodyStart ← Checked.word (start + pageHeaderBytes)
  let onDisk ← Checked.lift (slice bytes bodyStart length)
  if verify ∧ (crates.checksum onDisk).toNat ≠ checksum then .fail pageDamaged
  else if onDisk.length < bitmapBytes then
    .fail (.damaged "A stored page is shorter than the rows it says it holds.")
  else do
    let bitmap ← Checked.part onDisk 0 bitmapBytes
    let body ← Checked.part onDisk bitmapBytes onDisk.length
    if uncompressed > maxUncompressedPageBytes then
      .fail (.damaged "A stored page claims to hold more data than any page can hold.")
    else do
      let plain ← Checked.lift (expand crates codec body uncompressed)
      Checked.allocate rows onDisk.length
      let nulls := (List.range rows).map fun index =>
        ((bitmap[index / 8]?).map fun byte => bitOf byte (index % 8)).getD false
      .ok ⟨encoding, rows, nulls, plain, onDisk.length⟩

def readPage (bytes : Bytes) (start : Nat) (verify : Bool) : Checked FormatError Column := do
  let page ← pageContent crates bytes start verify
  decodeValues page.plain page.encoding page.rows page.nulls page.backing

/-- Take rows off the end of a piece until it measures under the target. -/
def shrink (column : Column) (target start : Nat) : (fuel rows : Nat) → Nat
  | 0, rows => rows
  | fuel + 1, rows =>
      if (writePage crates (column.slice start (start + rows))).length ≤ target ∨ rows ≤ 1 then rows
      else shrink column target start fuel (max (rows * 3 / 4) 1)

def piecesFrom (column : Column) (target each : Nat) : (fuel start : Nat) → List Column
  | 0, _ => []
  | fuel + 1, start =>
      if start < column.length then
        let most := min each (column.length - start)
        let rows := shrink crates column target start most most
        column.slice start (start + rows) :: piecesFrom column target each fuel (start + rows)
      else []

/-- Split one column into pages that each stay inside the page target. -/
def splitIntoPages (column : Column) (target : Nat) : List Column :=
  if column.length = 0 then []
  else
    let probe := (writePage crates column).length
    if probe ≤ target then [column]
    else piecesFrom crates column target (max (crates.rowsUnder target probe column.length) 1)
      column.length 0

end

end TallyOwl.SegmentFormat
