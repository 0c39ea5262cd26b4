import TallyOwl.Store.CborChecked
import TallyOwl.Store.Segment.Index
import TallyOwl.Store.Segment.Schema

/-! A whole segment file (`segment/file.rs`): a prologue, a description, the pages of each
row group, the index blocks, a directory and a trailer. A segment with no key is modelled,
so no block of it is encrypted. -/
namespace TallyOwl.SegmentFormat
open Lib Format Cbor

/-- What a segment says about itself before a reader touches a page. -/
structure Header where
  segmentId : Id
  tabletId : Nat
  virtualShard : Nat
  workspaceId : Id
  projectId : Id
  kinds : List String
  retentionClass : String
  occurredRange : Int × Int
  receivedRange : Int × Int
  committedRange : Int × Int
  logRange : Nat × Nat
  rowCount : Nat
  rowGroupCount : Nat
  uncompressedBytes : Nat
  compressedBytes : Nat
  projectorVersion : Nat
  deriving DecidableEq

structure PageRef where
  offset : Nat
  rows : Nat
  deriving DecidableEq

structure RowGroup where
  firstRow : Nat
  rows : Nat
  pages : OrderedMap String (List PageRef)

structure KeyReference where
  algorithm : Nat
  generation : Nat
  deriving DecidableEq

structure Footer where
  rowGroups : List RowGroup
  indexes : OrderedMap String (Nat × IndexLayout)
  payloadHash : Bytes
  keyReference : Option KeyReference

structure Segment where
  header : Header
  footer : Footer
  bytes : Bytes
  contentAddress : Bytes

def magic : Bytes := textBytes "TOWLSEG1"

def trailerMagic : Bytes := textBytes "TOWLEND1"

def formatMajor : Nat := 1

def formatMinor : Nat := 0

def prologueBytes : Nat := 64

def trailerBytes : Nat := 32

/-! The description, as canonical CBOR. -/

def pairToCbor (range : Int × Int) : Value := .array [.integer range.1, .integer range.2]

def headerFields (header : Header) : MapBuilder :=
  (∅ : MapBuilder)
    |>.put "v" (.unsigned formatMajor)
    |>.put "id" (.bytes header.segmentId.bytes)
    |>.put "tab" (.unsigned header.tabletId)
    |>.put "vs" (.unsigned header.virtualShard)
    |>.put "ws" (.bytes header.workspaceId.bytes)
    |>.put "pr" (.bytes header.projectId.bytes)
    |>.put "kinds" (.array (header.kinds.map .text))
    |>.put "ret" (.text header.retentionClass)
    |>.put "occ" (pairToCbor header.occurredRange)
    |>.put "rec" (pairToCbor header.receivedRange)
    |>.put "com" (pairToCbor header.committedRange)
    |>.put "log" (.array [.unsigned header.logRange.1, .unsigned header.logRange.2])
    |>.put "rows" (.unsigned header.rowCount)
    |>.put "rg" (.unsigned header.rowGroupCount)
    |>.put "proj" (.unsigned header.projectorVersion)

def headerToCbor (header : Header) : Value := (headerFields header).build

def missing (what : String) : FormatError :=
  .damaged s!"This stored file is missing the {what} it needs to be read."

def otherVersion (major : Nat) : FormatError := .unsupported
  ("This stored data was written by a different version of TallyOwl and this one cannot read it. " ++
    s!"It says version {major}, and this software reads version {formatMajor}.")

section
variable (value : Value)

def headerId (name : String) : Except FormatError Id :=
  match (value.field name).bind Value.asBytes with
  | some bytes =>
      if bytes.length = 16 then .ok (Id.ofBytes bytes) else .error (missing "identifiers")
  | none => .error (missing "identifiers")

def headerPair (name : String) : Except FormatError (Int × Int) :=
  match (value.field name).bind Value.asArray with
  | none => .error (missing "time range")
  | some list => .ok ((((list[0]?).bind Value.asInteger).getD 0), (((list[1]?).bind Value.asInteger).getD 0))

def headerLog : Except FormatError (Nat × Nat) :=
  match (value.field "log").bind Value.asArray with
  | none => .error (missing "log range")
  | some list => .ok ((((list[0]?).bind Value.asUnsigned).getD 0), (((list[1]?).bind Value.asUnsigned).getD 0))

def headerCount (name : String) : Nat := ((value.field name).bind Value.asUnsigned).getD 0

def headerFromCbor : Except FormatError Header :=
  -- a reader refuses a version it does not know
  if headerCount value "v" ≠ formatMajor then .error (otherVersion (headerCount value "v"))
  else do
    let segmentId ← headerId value "id"
    let workspaceId ← headerId value "ws"
    let projectId ← headerId value "pr"
    let occurredRange ← headerPair value "occ"
    let receivedRange ← headerPair value "rec"
    let committedRange ← headerPair value "com"
    let logRange ← headerLog value
    .ok {
      segmentId, workspaceId, projectId, occurredRange, receivedRange, committedRange, logRange
      tabletId := headerCount value "tab"
      virtualShard := headerCount value "vs"
      kinds := (((value.field "kinds").bind Value.asArray).getD []).filterMap Value.asText
      retentionClass := ((value.field "ret").bind Value.asText).getD "detailed"
      rowCount := headerCount value "rows"
      rowGroupCount := headerCount value "rg"
      uncompressedBytes := 0
      compressedBytes := 0
      projectorVersion := headerCount value "proj" }

end

/-! The directory, as canonical CBOR. -/

def refsToCbor (refs : List PageRef) : Value :=
  .array (refs.flatMap fun r => [.unsigned r.offset, .unsigned r.rows])

def groupToCbor (group : RowGroup) : Value :=
  ((∅ : MapBuilder)
    |>.put "first" (.unsigned group.firstRow)
    |>.put "rows" (.unsigned group.rows)
    |>.put "pages" (.map (group.pages.mapValues fun _ refs => refsToCbor refs).entries)).build

def footerFields (footer : Footer) : MapBuilder :=
  (∅ : MapBuilder)
    |>.put "rg" (.array (footer.rowGroups.map groupToCbor))
    |>.put "idx" (.map (footer.indexes.mapValues fun _ place =>
        .array [.unsigned place.1, .unsigned place.2.number]).entries)
    |>.put "hash" (.bytes footer.payloadHash)
    |>.putSome "key" (footer.keyReference.map fun key =>
        .array [.unsigned key.algorithm, .unsigned key.generation])

def footerToCbor (footer : Footer) : Value := (footerFields footer).build

def directoryDamaged (what : String) : FormatError :=
  .damaged s!"This stored file's {what} could not be read, so we cannot say what it holds."

/-- The whole pairs of a list of numbers. A number that is not there is zero. -/
def refsFrom : List Value → List PageRef
  | offset :: rows :: rest => ⟨offset.asUnsigned.getD 0, rows.asUnsigned.getD 0⟩ :: refsFrom rest
  | _ => []

def refsFromCbor (entry : String × Value) : Except FormatError (String × List PageRef) :=
  match entry.2.asArray with
  | none => .error (directoryDamaged "directory")
  | some numbers => .ok (entry.1, refsFrom numbers)

def groupFromCbor (group : Value) : Except FormatError RowGroup :=
  match (group.field "pages").bind Value.asMap with
  | none => .error (directoryDamaged "directory")
  | some entries => do
      let pages ← entries.mapM refsFromCbor
      .ok ⟨((group.field "first").bind Value.asUnsigned).getD 0,
        ((group.field "rows").bind Value.asUnsigned).getD 0, .ofList pages⟩

def indexFromCbor (entry : String × Value) : Option (String × (Nat × IndexLayout)) := do
  let pair ← entry.2.asArray
  let offset ← (← pair[0]?).asUnsigned
  let layout ← IndexLayout.fromNumber ((← (← pair[1]?).asUnsigned) % 2 ^ 16)
  some (entry.1, offset, layout)

def keyFromCbor (value : Value) : Option KeyReference := do
  let pair ← value.asArray
  let algorithm ← (← pair[0]?).asUnsigned
  let generation ← (← pair[1]?).asUnsigned
  some ⟨algorithm % 2 ^ 16, generation % 2 ^ 32⟩

def footerFromCbor (value : Value) : Except FormatError Footer :=
  match (value.field "rg").bind Value.asArray with
  | none => .error (directoryDamaged "directory")
  | some groups => do
      let rowGroups ← groups.mapM groupFromCbor
      let indexes := .ofList ((((value.field "idx").bind Value.asMap).getD []).filterMap indexFromCbor)
      match (value.field "hash").bind Value.asBytes with
      | none => .error (directoryDamaged "checksum")
      | some hash =>
          if hash.length ≠ 32 then .error (directoryDamaged "checksum")
          else .ok ⟨rowGroups, indexes, hash, (value.field "key").bind keyFromCbor⟩

/-! Reading. -/

def decodePart (what : String) (bytes : Bytes) : Checked FormatError Value :=
  match decodeChecked bytes with
  | .ok value => .ok value
  | .error (.error e) => .fail (.damaged (what ++ e.display))
  | .error (.fault f) => .fault f

/-- `u64::saturating_add`, over the rows of every group. -/
def listedRows (groups : List RowGroup) : Nat :=
  groups.foldl (fun total group => min (total + group.rows) (2 ^ 64 - 1)) 0

def countsDiffer (rowCount listed : Nat) : FormatError := .damaged
  (s!"This stored file says it holds {rowCount} items and lists {listed}. " ++
    "We cannot say what it holds, so we did not answer from it.")

section
variable (crates : Crates)

def openFooter (bytes : Bytes) (verify : Bool) : Checked FormatError Footer := do
  let trailerAt ← Checked.minus bytes.length trailerBytes
  let footerOffset ← Checked.lift (getU64 bytes trailerAt)
  let footerLength ← Checked.lift (getU32 bytes (← Checked.word (trailerAt + 8)))
  let footerChecksum ← Checked.lift (getU64 bytes (← Checked.word (trailerAt + 12)))
  let footerBytes ← Checked.lift (slice bytes footerOffset footerLength)
  if verify ∧ (crates.checksum footerBytes).toNat ≠ footerChecksum then
    .fail (.damaged ("This stored file's directory did not read back as what it was written as. " ++
      "We cannot say what it holds, so we did not answer from it."))
  else do
    let value ← decodePart "This stored file's directory could not be read. " footerBytes
    Checked.lift (footerFromCbor value)

def openHeader (bytes : Bytes) : Checked FormatError Header := do
  let major ← Checked.lift (getU16 bytes 8)
  if major ≠ formatMajor then .fail (otherVersion major)
  else do
    let headerLength ← Checked.lift (getU32 bytes 12)
    let headerOffset ← Checked.lift (getU64 bytes 16)
    let headerBytes ← Checked.lift (slice bytes headerOffset headerLength)
    let value ← decodePart "This stored file's description could not be read. " headerBytes
    let header ← Checked.lift (headerFromCbor value)
    .ok { header with compressedBytes := bytes.length }

def openSegment (bytes : Bytes) (verify : Bool) : Checked FormatError Segment :=
  if bytes.length < prologueBytes + trailerBytes then
    .fail (.incomplete ("This stored file is too short to be one of ours. " ++
      "It was probably not finished being written."))
  else do
    let first ← Checked.part bytes 0 8
    if first ≠ magic then .fail (.incomplete "This file is not one of ours.")
    else do
      let last ← Checked.part bytes (← Checked.minus bytes.length 8) bytes.length
      if last ≠ trailerMagic then
        .fail (.incomplete "This stored file was not finished being written, so we did not use it.")
      else do
        let footer ← openFooter crates bytes verify
        let header ← openHeader bytes
        -- the description's row count sizes an allocation, so the directory has to agree
        if header.rowCount ≠ listedRows footer.rowGroups then
          .fail (countsDiffer header.rowCount (listedRows footer.rowGroups))
        else do
          let address ← Checked.part bytes 32 64
          .ok ⟨header, footer, bytes, address⟩

def append : Column → Column → Except FormatError Column
  | .timestamps a, .timestamps b => .ok (.timestamps (a ++ b))
  | .integers a, .integers b => .ok (.integers (a ++ b))
  | .unsigned a, .unsigned b => .ok (.unsigned (a ++ b))
  | .floats a, .floats b => .ok (.floats (a ++ b))
  | .booleans a, .booleans b => .ok (.booleans (a ++ b))
  | .identifiers a, .identifiers b => .ok (.identifiers (a ++ b))
  | .text a, .text b => .ok (.text (a ++ b))
  | .bytes a, .bytes b => .ok (.bytes (a ++ b))
  | _, _ => .error (.damaged "Two parts of one stored column do not agree on what they hold.")

def joined : Option Column → Column → Except FormatError Column
  | none, page => .ok page
  | some held, page => append held page

section
variable (segment : Segment) (verify : Bool)

def mergePages : (held : Option Column) → List PageRef → Checked FormatError (Option Column)
  | held, [] => .ok held
  | held, ref :: refs => do
      let page ← readPage crates segment.bytes ref.offset verify
      let column ← Checked.lift (joined held page)
      mergePages (some column) refs

def readColumns : List (String × List PageRef) → Columns → Checked FormatError Columns
  | [], columns => .ok columns
  | (name, refs) :: rest, columns => do
      match ← mergePages crates segment verify none refs with
      | some column => readColumns rest (columns.insert name column)
      | none => readColumns rest columns

def rowGroup (group : RowGroup) : Checked FormatError (List EventRow) := do
  let columns ← readColumns crates segment verify group.pages.entries ∅
  toRows columns group.rows segment.header.workspaceId segment.header.projectId segment.bytes.length

def groupRows : List RowGroup → Checked FormatError (List EventRow)
  | [] => .ok []
  | group :: groups => do
      let rows ← rowGroup crates segment verify group
      let more ← groupRows groups
      .ok (rows ++ more)

def Segment.rows : Checked FormatError (List EventRow) := do
  Checked.allocate segment.header.rowCount segment.bytes.length
  groupRows crates segment verify segment.footer.rowGroups

def Segment.index (column : String) : Checked FormatError (Option ColumnIndex) :=
  match segment.footer.indexes.get? column with
  | none => .ok none
  | some place => do
      let index ← readIndex crates segment.bytes place.1 verify
      .ok (some index)

/-- The filters of the row groups, up to the first that may hold the value. -/
def anyMaybe (value : Bytes) : List BlockFilter → Checked FormatError Bool
  | [] => .ok false
  | filter :: filters => do
      let found ← filter.maybe crates.checksum value
      if found then .ok true else anyMaybe value filters

def ColumnIndex.mayHold (value : Bytes) : ColumnIndex → Checked FormatError Bool
  | .blockFilter filters => anyMaybe crates value filters
  | .termPostings postings => .ok (postings.rows value).isSome
  | .uniqueLookup entries => do
      let candidates ← entries.candidates (crates.checksum value).toNat
      .ok (!candidates.isEmpty)

/-- Whether this segment can hold a value, without reading a page. An index that is missing
or damaged says maybe. -/
def Segment.mayHold (column : String) (value : Bytes) : Checked FormatError Bool :=
  match segment.index crates verify column with
  | .ok none => .ok true
  | .ok (some index) => index.mayHold crates value
  | .error (.error _) => .ok true
  | .error (.fault f) => .fault f

end

end

end TallyOwl.SegmentFormat
