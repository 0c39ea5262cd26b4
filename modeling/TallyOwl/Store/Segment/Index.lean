import Mathlib.Data.Nat.Log
import TallyOwl.Store.Segment.Page

/-! The index region (`segment/index.rs`): a block filter for values that are mostly
unique, postings for values that repeat, and sorted fingerprints. -/
namespace TallyOwl.SegmentFormat
open Lib Format

inductive IndexLayout where
  | termPostings
  | blockFilter
  | uniqueLookup
  deriving DecidableEq

def IndexLayout.number : IndexLayout → Nat
  | .termPostings => 1
  | .blockFilter => 2
  | .uniqueLookup => 3

def IndexLayout.fromNumber : Nat → Option IndexLayout
  | 1 => some .termPostings
  | 2 => some .blockFilter
  | 3 => some .uniqueLookup
  | _ => none

/-- A blocked filter over the values of one row group: one word for each key and four
bits in it. -/
structure BlockFilter where
  words : List UInt64
  deriving DecidableEq

def filterBitsEachKey : Nat := 12

/-- `next_power_of_two`. -/
def nextPowerOfTwo (n : Nat) : Nat := 2 ^ Nat.clog 2 n

namespace BlockFilter

def new (rows : Nat) : BlockFilter :=
  ⟨List.replicate (nextPowerOfTwo (max (rows * filterBitsEachKey / 64) 8)) 0⟩

def mixed (hash : UInt64) : UInt64 := (hash * (0x9e3779b97f4a7c15 : UInt64)) ^^^ (hash >>> 29)

def bits (hash : UInt64) : List UInt64 :=
  [mixed hash, mixed (mixed hash), mixed (mixed (mixed hash)),
    mixed (mixed (mixed (mixed hash)))].map fun m => (1 : UInt64) <<< (m &&& 63)

/-- The word of a hash. The mask is one less than the word count. -/
def wordOf (filter : BlockFilter) (hash : UInt64) : Checked FormatError Nat := do
  let mask ← Checked.minus filter.words.length 1
  .ok ((hash >>> 32).toNat &&& mask)

def insert (checksum : Bytes → UInt64) (filter : BlockFilter) (value : Bytes) :
    Checked FormatError BlockFilter := do
  let hash := checksum value
  let place ← filter.wordOf hash
  let word ← Checked.item filter.words place
  .ok ⟨filter.words.set place ((bits hash).foldl (· ||| ·) word)⟩

/-- `false` means the value is absent. -/
def maybe (checksum : Bytes → UInt64) (filter : BlockFilter) (value : Bytes) :
    Checked FormatError Bool := do
  let hash := checksum value
  let place ← filter.wordOf hash
  let word ← Checked.item filter.words place
  .ok ((bits hash).all fun bit => word &&& bit ≠ 0)

def write (filter : BlockFilter) : Bytes :=
  putU32 filter.words.length ++ filter.words.flatMap fun word => putU64 word.toNat

def readWords (bytes : Bytes) (start : Nat) : (count index : Nat) → Checked FormatError (List UInt64)
  | 0, _ => .ok []
  | count + 1, index => do
      let offset ← Checked.word (start + 4 + index * 8)
      let word ← Checked.lift (getU64 bytes offset)
      let words ← readWords bytes start count (index + 1)
      .ok (UInt64.ofNat word :: words)

def read (bytes : Bytes) (start : Nat) : Checked FormatError (BlockFilter × Nat) := do
  let count ← Checked.lift (getU32 bytes start)
  let first ← Checked.word (start + 4)
  let size ← Checked.word (count * 8)
  let _ ← Checked.lift (slice bytes first size)
  Checked.allocate count bytes.length
  let words ← readWords bytes start count 0
  let last ← Checked.word (start + 4 + count * 8)
  .ok (⟨words⟩, last)

end BlockFilter

abbrev TermPostings := List (Bytes × List Nat)

namespace TermPostings

def add (value : Bytes) (row : Nat) : TermPostings → TermPostings
  | [] => [(value, [row])]
  | (term, rows) :: rest =>
      if value = term then (term, rows ++ [row]) :: rest
      else if value < term then (value, [row]) :: (term, rows) :: rest
      else (term, rows) :: add value row rest

def rows (postings : TermPostings) (value : Bytes) : Option (List Nat) :=
  (postings.find? (·.1 = value)).map Prod.snd

def putRows : (previous : Nat) → List Nat → Bytes
  | _, [] => []
  | previous, row :: rows => putVarint (row - previous) ++ putRows row rows

def write (postings : TermPostings) : Bytes :=
  putU32 postings.length ++ postings.flatMap fun term =>
    putVarint term.1.length ++ (term.1 ++ (putVarint term.2.length ++ putRows 0 term.2))

def readRows (bytes : Bytes) : (count used previous : Nat) → Checked FormatError (List Nat × Nat)
  | 0, used, _ => .ok ([], used)
  | count + 1, used, previous => do
      let (step, next) ← getVarint bytes used
      let row := (previous + step) % 2 ^ 32
      let (rows, last) ← readRows bytes count next row
      .ok (row :: rows, last)

/-- Terms are kept by value, and a later one of a value replaces an earlier one. -/
def put (term : Bytes) (rows : List Nat) : TermPostings → TermPostings
  | [] => [(term, rows)]
  | (other, held) :: rest =>
      if term = other then (term, rows) :: rest
      else if term < other then (term, rows) :: (other, held) :: rest
      else (other, held) :: put term rows rest

def readTerms (bytes : Bytes) : (count used : Nat) → TermPostings → Checked FormatError TermPostings
  | 0, _, postings => .ok postings
  | count + 1, used, postings => do
      let (length, next) ← getVarint bytes used
      let term ← Checked.lift (slice bytes next length)
      let after ← Checked.word (next + length)
      let (rows, next) ← getVarint bytes after
      if rows > bytes.length - next then
        .fail (.damaged "A stored index names more rows than it holds.")
      else do
        Checked.allocate rows bytes.length
        let (list, last) ← readRows bytes rows next 0
        readTerms bytes count last (put term list postings)

def read (bytes : Bytes) (start : Nat) : Checked FormatError TermPostings := do
  let count ← Checked.lift (getU32 bytes start)
  let used ← Checked.word (start + 4)
  if count > bytes.length - used then
    .fail (.damaged "A stored index claims more values than it holds.")
  else readTerms bytes count used []

end TermPostings

abbrev UniqueLookup := List (Nat × Nat)

namespace UniqueLookup

/-- How many fingerprints from the front are below one. The entries of a file may be in any
order, and a binary search then stops somewhere: it looks at half of what is left. -/
def partitionPoint (entries : UniqueLookup) (target : Nat) : (fuel first size : Nat) → Nat
  | 0, first, _ => first
  | fuel + 1, first, size =>
      if size = 0 then first
      else
        let half := size / 2
        if ((entries[first + half]?).map Prod.fst).getD 0 < target then
          partitionPoint entries target fuel (first + half + 1) (size - half - 1)
        else partitionPoint entries target fuel first half

def candidates (entries : UniqueLookup) (target : Nat) : Checked FormatError (List Nat) := do
  let start := partitionPoint entries target entries.length 0 entries.length
  let rest ← Checked.part entries start entries.length
  .ok ((rest.takeWhile fun e => e.1 = target).map Prod.snd)

def readEntries (bytes : Bytes) (start : Nat) : (count index : Nat) → Checked FormatError UniqueLookup
  | 0, _ => .ok []
  | count + 1, index => do
      let base ← Checked.word (start + 4 + index * 12)
      let hash ← Checked.lift (getU64 bytes base)
      let row ← Checked.lift (getU32 bytes (← Checked.word (base + 8)))
      let entries ← readEntries bytes start count (index + 1)
      .ok ((hash, row) :: entries)

def read (bytes : Bytes) (start : Nat) : Checked FormatError UniqueLookup := do
  let count ← Checked.lift (getU32 bytes start)
  let first ← Checked.word (start + 4)
  let size ← Checked.word (count * 12)
  let _ ← Checked.lift (slice bytes first size)
  Checked.allocate count bytes.length
  let entries ← readEntries bytes start count 0
  let _ ← Checked.word (start + 4 + count * 12)
  .ok entries

def write (entries : UniqueLookup) : Bytes :=
  putU32 entries.length ++ entries.flatMap fun e => putU64 e.1 ++ putU32 e.2

end UniqueLookup

inductive ColumnIndex where
  | blockFilter (filters : List BlockFilter)
  | termPostings (postings : TermPostings)
  | uniqueLookup (entries : UniqueLookup)
  deriving DecidableEq

def ColumnIndex.layout : ColumnIndex → IndexLayout
  | .blockFilter _ => .blockFilter
  | .termPostings _ => .termPostings
  | .uniqueLookup _ => .uniqueLookup

def ColumnIndex.body : ColumnIndex → Bytes
  | .blockFilter filters => putU32 filters.length ++ filters.flatMap BlockFilter.write
  | .termPostings postings => postings.write
  | .uniqueLookup entries => entries.write

def indexHeaderBytes : Nat := 14

section
variable (crates : Crates)

def writeIndex (index : ColumnIndex) : Bytes :=
  putU32 index.body.length ++ (putU16 index.layout.number ++
    (putU64 (crates.checksum index.body).toNat ++ index.body))

def readFilters (bytes : Bytes) : (count used : Nat) → Checked FormatError (List BlockFilter)
  | 0, _ => .ok []
  | count + 1, used => do
      let (filter, next) ← BlockFilter.read bytes used
      let filters ← readFilters bytes count next
      .ok (filter :: filters)

def indexDamaged : FormatError := .damaged
  "Part of the stored index did not read back as what it was written as. A lookup here would miss rows, so we did not answer."

def decodeIndex (body : Bytes) : IndexLayout → Checked FormatError ColumnIndex
  | .blockFilter => do
      let count ← Checked.lift (getU32 body 0)
      if count > body.length then
        .fail (.damaged "A stored index claims more parts than it holds.")
      else do
        Checked.allocate count body.length
        let filters ← readFilters body count 4
        .ok (.blockFilter filters)
  | .termPostings => do
      let postings ← TermPostings.read body 0
      .ok (.termPostings postings)
  | .uniqueLookup => do
      let entries ← UniqueLookup.read body 0
      .ok (.uniqueLookup entries)

def readIndex (bytes : Bytes) (start : Nat) (verify : Bool) : Checked FormatError ColumnIndex := do
  let length ← Checked.lift (getU32 bytes start)
  let layoutNumber ← Checked.lift (getU16 bytes (← Checked.word (start + 4)))
  let checksum ← Checked.lift (getU64 bytes (← Checked.word (start + 6)))
  let onDisk ← Checked.lift (slice bytes (← Checked.word (start + indexHeaderBytes)) length)
  if verify ∧ (crates.checksum onDisk).toNat ≠ checksum then .fail indexDamaged
  else
    match IndexLayout.fromNumber layoutNumber with
    | none => .fail (.unsupported
        "One index in this stored data uses a form this software does not know.")
    | some layout => decodeIndex onDisk layout

end

end TallyOwl.SegmentFormat
