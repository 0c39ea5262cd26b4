import Mathlib.Data.List.Dedup
import TallyOwl.Lib.Chunks
import TallyOwl.Lib.LayOut
import TallyOwl.Store.Segment.File

/-! Writing a whole segment (`segment/file.rs`): which columns are indexed and how, the row groups, and
the file. A segment of a protected project has its pages and index blocks encrypted, each under its
place, by a cipher that is a parameter here. -/
namespace TallyOwl.SegmentFormat
open Lib Format Locate Cbor

/-- What protects one block at a time (`keys.rs`). A failure is the text of its error. -/
structure Cipher where
  generation : Nat
  sealBlock : (plain context : Bytes) → Except String Bytes
  openBlock : (protectedBytes context : Bytes) → Except String Bytes

def algorithmAes256Gcm : Nat := 1

def blockContext (segmentId : Id) (offset : Nat) : Bytes := segmentId.bytes ++ putU64 offset

section
variable (crates : Crates) (cipher : Option Cipher) (segmentId : Id) (start : Nat)

def sealedBody (body : Bytes) : Except FormatError Bytes :=
  match cipher with
  | none => .ok body
  | some cipher => (cipher.sealBlock body (blockContext segmentId start)).mapError .unsupported

def openedBody (body : Bytes) : Except FormatError Bytes :=
  match cipher with
  | none => .ok body
  | some cipher => (cipher.openBlock body (blockContext segmentId start)).mapError .unsupported

def writePageMaybeEncrypted (column : Column) : Except FormatError Bytes := do
  let stored := storedValues crates column
  let checked ← sealedBody cipher segmentId start (packBits column.nulls ++ stored.2)
  .ok (putU32 checked.length ++ (putU16 column.encoding.number ++ (putU16 stored.1.number ++
    (putU32 column.length ++ (putU32 (encodeValues column).length ++
      (putU64 (crates.checksum checked).toNat ++ checked))))))

/-- Write one column's index, encrypted when the segment has a key. -/
def writeIndexMaybeEncrypted (index : ColumnIndex) : Except FormatError Bytes := do
  let body ← sealedBody cipher segmentId start index.body
  .ok (putU32 body.length ++ (putU16 index.layout.number ++
    (putU64 (crates.checksum body).toNat ++ body)))

/-- Read one index block, with the key of the segment when it has one. -/
def readIndexMaybeEncrypted (bytes : Bytes) (verify : Bool) : Checked FormatError ColumnIndex := do
  let length ← Checked.lift (getU32 bytes start)
  let layoutNumber ← Checked.lift (getU16 bytes (← Checked.word (start + 4)))
  let checksum ← Checked.lift (getU64 bytes (← Checked.word (start + 6)))
  let onDisk ← Checked.lift (slice bytes (← Checked.word (start + indexHeaderBytes)) length)
  if verify ∧ (crates.checksum onDisk).toNat ≠ checksum then .fail indexDamaged
  else do
    let body ← Checked.lift (openedBody cipher segmentId start onDisk)
    match IndexLayout.fromNumber layoutNumber with
    | none => .fail (.unsupported
        "One index in this stored data uses a form this software does not know.")
    | some layout => decodeIndex body layout

end

theorem writeIndexMaybeEncrypted_none (crates : Crates) (segmentId : Id) (start : Nat) (index : ColumnIndex) :
    writeIndexMaybeEncrypted crates none segmentId start index = .ok (writeIndex crates index) := rfl

theorem writePageMaybeEncrypted_none (crates : Crates) (segmentId : Id) (start : Nat) (column : Column) :
    writePageMaybeEncrypted crates none segmentId start column = .ok (writePage crates column) := rfl

/-! Which columns are indexed, and how. -/

def distinctEstimate : Column → Nat
  | .identifiers values => values.dedup.length
  | .text values => values.dedup.length
  | column => column.length

def IsIndexed (name : String) : Prop :=
  name = "event_id" ∨ name = "trace_id" ∨ name = "session_id" ∨ name = "request_id" ∨
    propertyPrefix.toList <+: name.toList

instance (name : String) : Decidable (IsIndexed name) := inferInstanceAs (Decidable (_ ∨ _))

def chooseLayout (name : String) (column : Column) : Option IndexLayout :=
  if column.length = 0 then none
  else if ¬ IsIndexed name then none
  -- a value that repeats gets postings, because a filter gives no row list
  else if distinctEstimate column * 2 ≤ column.length then some .termPostings
  else some .blockFilter

/-- The bytes a value contributes to an index, or nothing when the row has none. An identifier of
zeroes is the absent form. -/
def indexKey (column : Column) (row : Nat) : Option Bytes :=
  match column with
  | .identifiers values => values[row]?.bind fun id => if id ≠ 0 then some id.bytes else none
  | .text values => values[row]?.join.map textBytes
  | .unsigned values => values[row]?.map putU64
  | .integers values | .timestamps values => values[row]?.map fun v => putU64 (asU64 v)
  | .booleans values => values[row]?.map fun v => [if v then 1 else 0]
  | .floats values => values[row]?.map fun bits => putU64 bits.toNat
  | .bytes values => values[row]?.join

section
variable (checksum : Bytes → UInt64) (column : Column)

def fillFilter : (count row : Nat) → BlockFilter → Checked FormatError BlockFilter
  | 0, _, filter => .ok filter
  | count + 1, row, filter =>
      match indexKey column row with
      | none => fillFilter count (row + 1) filter
      | some key => do
          let more ← filter.insert checksum key
          fillFilter count (row + 1) more

/-- One filter for each row group, in row-group order. The rows of a group follow those of the one
before it. -/
def buildFilters : (groups : List (List EventRow)) → (row : Nat) → Checked FormatError (List BlockFilter)
  | [], _ => .ok []
  | group :: groups, row => do
      let filter ← fillFilter checksum column group.length row (.new group.length)
      let filters ← buildFilters groups (row + group.length)
      .ok (filter :: filters)

def addPosting (postings : TermPostings) (row : Nat) : TermPostings :=
  match indexKey column row with
  | none => postings
  | some key => postings.add key (row % 2 ^ 32)

def buildPostings : TermPostings := (List.range column.length).foldl (addPosting column) []

/-- The order of `seal`. -/
def fingerprintLe (a b : Nat × Nat) : Prop := a.1 < b.1 ∨ (a.1 = b.1 ∧ a.2 ≤ b.2)

instance (a b : Nat × Nat) : Decidable (fingerprintLe a b) := inferInstanceAs (Decidable (_ ∨ _))

def buildLookup : UniqueLookup :=
  ((List.range column.length).filterMap fun row =>
    (indexKey column row).map fun key => ((checksum key).toNat, row % 2 ^ 32)).insertionSort fingerprintLe

def buildIndex (layout : IndexLayout) (groups : List (List EventRow)) : Checked FormatError ColumnIndex :=
  match layout with
  | .blockFilter => do
      let filters ← buildFilters checksum column groups 0
      .ok (.blockFilter filters)
  | .termPostings => .ok (.termPostings (buildPostings column))
  | .uniqueLookup => .ok (.uniqueLookup (buildLookup checksum column))

end

def buildIndexes (checksum : Bytes → UInt64) (groups : List (List EventRow)) :
    List (String × Column) → Checked FormatError (List (String × ColumnIndex))
  | [] => .ok []
  | (name, column) :: columns =>
      match chooseLayout name column with
      | none => buildIndexes checksum groups columns
      | some layout => do
          let index ← buildIndex checksum column layout groups
          let indexes ← buildIndexes checksum groups columns
          .ok ((name, index) :: indexes)

structure SegmentWriter where
  segmentId : Id
  tabletId : Nat
  virtualShard : Nat
  workspaceId : Id
  projectId : Id
  retentionClass : String
  logRange : Nat × Nat
  projectorVersion : Nat
  rowGroupTargetBytes : Nat
  pageTargetBytes : Nat
  cipher : Option Cipher

namespace SegmentWriter

def rowGroupTargetBytesDefault : Nat := 12 * 1024 * 1024

def pageTargetBytesDefault : Nat := 64 * 1024

def new (segmentId workspaceId projectId : Id) : SegmentWriter where
  segmentId := segmentId
  tabletId := 0
  virtualShard := 0
  workspaceId := workspaceId
  projectId := projectId
  retentionClass := "detailed"
  logRange := (0, 0)
  projectorVersion := 1
  rowGroupTargetBytes := rowGroupTargetBytesDefault
  pageTargetBytes := pageTargetBytesDefault
  cipher := none

variable (crates : Crates) (writer : SegmentWriter)

/-- Split rows into row groups on measured bytes, of a sample of them. -/
def splitRows (rows : List EventRow) : List (List EventRow) :=
  let sample := min rows.length 256
  let measured := ((toColumns crates.floatText (rows.take sample)).values.map fun column =>
    (writePage crates column).length).sum
  chunks (max (crates.rowsUnder writer.rowGroupTargetBytes measured sample) 1) rows

def timeRange (pick : EventRow → Int) (rows : List EventRow) : Int × Int :=
  rows.foldl (fun range row => (min range.1 (pick row), max range.2 (pick row))) (2 ^ 63 - 1, -2 ^ 63)

def buildHeader (rows : List EventRow) (rowGroups : Nat) : Header where
  segmentId := writer.segmentId
  tabletId := writer.tabletId
  virtualShard := writer.virtualShard
  workspaceId := writer.workspaceId
  projectId := writer.projectId
  kinds := sortDedup (· ≤ ·) (rows.map EventRow.kind)
  retentionClass := writer.retentionClass
  occurredRange := timeRange EventRow.occurredAt rows
  receivedRange := timeRange EventRow.receivedAt rows
  committedRange := timeRange EventRow.committedAt rows
  logRange := writer.logRange
  rowCount := rows.length
  rowGroupCount := rowGroups
  uncompressedBytes := 0
  compressedBytes := 0
  projectorVersion := writer.projectorVersion

def putPage (start : Nat) (piece : Column) : Except FormatError (Bytes × PageRef) := do
  let block ← writePageMaybeEncrypted crates writer.cipher writer.segmentId start piece
  .ok (block, ⟨start, piece.length⟩)

def putColumn (start : Nat) (entry : String × Column) :
    Except FormatError (Bytes × (String × List PageRef)) := do
  let (blocks, refs) ← layOut (writer.putPage crates) start
    (splitIntoPages crates entry.2 writer.pageTargetBytes)
  .ok (blocks, entry.1, refs)

def putGroup (start : Nat) (group : Nat × List EventRow) : Except FormatError (Bytes × RowGroup) := do
  let (blocks, pages) ← layOut (writer.putColumn crates) start (toColumns crates.floatText group.2).entries
  .ok (blocks, ⟨group.1, group.2.length, .ofList pages⟩)

def putIndex (start : Nat) (entry : String × ColumnIndex) :
    Except FormatError (Bytes × (String × (Nat × IndexLayout))) := do
  let block ← writeIndexMaybeEncrypted crates writer.cipher writer.segmentId start entry.2
  .ok (block, entry.1, start, entry.2.layout)

def numbered : (firstRow : Nat) → List (List EventRow) → List (Nat × List EventRow)
  | _, [] => []
  | firstRow, group :: groups => (firstRow, group) :: numbered (firstRow + group.length) groups

def prologue (headerLength footerOffset : Nat) (address : Bytes) : Bytes :=
  magic ++ (putU16 formatMajor ++ (putU16 formatMinor ++ (putU32 headerLength ++
    (putU64 prologueBytes ++ (putU64 footerOffset ++ address)))))

def trailer (footerOffset : Nat) (footerBytes : Bytes) : Bytes :=
  putU64 footerOffset ++ (putU32 footerBytes.length ++ (putU64 (crates.checksum footerBytes).toNat ++
    (putU32 formatMinor ++ trailerMagic)))

def write (rows : List EventRow) : Checked FormatError Segment :=
  if rows = [] then .fail (.unsupported "A stored file needs at least one item.")
  else do
    let groups := writer.splitRows crates rows
    let header := writer.buildHeader rows groups.length
    let headerBytes := encode (headerToCbor header)
    let indexes ← buildIndexes crates.checksum groups (toColumns crates.floatText rows).entries
    let pagesAt := prologueBytes + headerBytes.length
    let (pageBytes, rowGroups) ← Checked.lift (layOut (writer.putGroup crates) pagesAt (numbered 0 groups))
    let indexesAt := pagesAt + pageBytes.length
    let (indexBytes, places) ← Checked.lift (layOut (writer.putIndex crates) indexesAt indexes)
    let region := headerBytes ++ (pageBytes ++ indexBytes)
    let footer : Footer := {
      rowGroups
      indexes := .ofList places
      payloadHash := crates.contentAddress region
      keyReference := writer.cipher.map fun cipher => ⟨algorithmAes256Gcm, cipher.generation⟩ }
    let footerBytes := encode (footerToCbor footer)
    let footerOffset := prologueBytes + region.length
    let payload := region ++ (footerBytes ++ trailer crates footerOffset footerBytes)
    let address := crates.contentAddress payload
    let bytes := prologue headerBytes.length footerOffset address ++ payload
    let uncompressedBytes := (groups.map fun group =>
      ((toColumns crates.floatText group).values.map Column.length).sum).sum
    .ok ⟨{ header with uncompressedBytes, compressedBytes := bytes.length }, footer, bytes, address⟩

end SegmentWriter

section
variable (crates : Crates) (segment : Segment) (cipher : Option Cipher) (verify : Bool)

/-- One column's index, read with the key of the segment when it has one. -/
def Segment.indexUnder (column : String) : Checked FormatError (Option ColumnIndex) :=
  match segment.footer.indexes.get? column with
  | none => .ok none
  | some place => do
      let index ← readIndexMaybeEncrypted crates cipher segment.header.segmentId place.1 segment.bytes verify
      .ok (some index)

def Segment.mayHoldUnder (column : String) (value : Bytes) : Checked FormatError Bool :=
  match segment.indexUnder crates cipher verify column with
  | .ok none => .ok true
  | .ok (some index) => index.mayHold crates value
  | .error (.error _) => .ok true
  | .error (.fault f) => .fault f

end

end TallyOwl.SegmentFormat
