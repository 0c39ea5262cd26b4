import TallyOwl.Store.Format

/-! The frames of the append log (`wal.rs`): how a frame is written, how a byte
range of whole frames is walked, and what recovery reads back. The checksum
function is the one of an outside crate and is a parameter here. Each loop of the
source is a recursion on a count of bytes that cannot run out before the loop does. -/
namespace TallyOwl.Wal
open Lib Format

/-- `TOWLWAL2`. A frame's checksum covers its length and position. -/
def walMagic : Bytes := [0x54, 0x4f, 0x57, 0x4c, 0x57, 0x41, 0x4c, 0x32]

/-- `TOWLWAL1`. A frame's checksum covers its payload alone. -/
def walMagicV1 : Bytes := [0x54, 0x4f, 0x57, 0x4c, 0x57, 0x41, 0x4c, 0x31]

def frameHeaderBytes : Nat := 20

structure Frame where
  position : Nat
  payload : Bytes
  deriving DecidableEq

inductive WalError where
  | unavailable (message : String)
  | damaged (message : String)
  deriving DecidableEq

def WalError.ofFormat : FormatError → WalError
  | .damaged m | .unsupported m => .damaged m
  | .incomplete m => .damaged m

section
variable (hash : Bytes → UInt64)

def frameChecksum (length position : Nat) (payload : Bytes) (headerChecksummed : Bool) : UInt64 :=
  if !headerChecksummed then hash payload
  else hash (putU32 length ++ putU64 position ++ payload)

def encodeFrame (position : Nat) (payload : Bytes) (headerChecksummed : Bool) : Bytes :=
  putU32 payload.length ++ (putU64 position ++
    (putU64 (frameChecksum hash payload.length position payload headerChecksummed).toNat ++ payload))

/-- One whole frame that reads back, starting at `start`: its position and its end. -/
def frameAt (bytes : Bytes) (start : Nat) (headerChecksummed : Bool) : Option (Nat × Nat) :=
  match getU32 bytes start, getU64 bytes (start + 4), getU64 bytes (start + 12) with
  | .ok length, .ok position, .ok checksum =>
      match window bytes (start + frameHeaderBytes) length with
      | some payload =>
          if (frameChecksum hash length position payload headerChecksummed).toNat = checksum then
            some (position, start + frameHeaderBytes + length)
          else none
      | none => none
  | _, _, _ => none

def reencodeFrom (bytes : Bytes) : (fuel start : Nat) → Except WalError Bytes
  | 0, _ => .ok []
  | fuel + 1, start =>
      if start < bytes.length then
        match getU32 bytes start, getU64 bytes (start + 4) with
        | .ok length, .ok position =>
            let next := start + frameHeaderBytes + length
            if next > bytes.length then .ok []
            else do
              let rest ← reencodeFrom bytes fuel next
              .ok (encodeFrame hash position
                ((bytes.drop (start + frameHeaderBytes)).take length) true ++ rest)
        | .error e, _ => .error (.ofFormat e)
        | _, .error e => .error (.ofFormat e)
      else .ok []

def reencode (frames : Bytes) : Except WalError Bytes := reencodeFrom hash frames frames.length 0

end

def framesFrom (bytes : Bytes) : (fuel start : Nat) → Nat
  | 0, _ => 0
  | fuel + 1, start =>
      match getU32 bytes start with
      | .error _ => 0
      | .ok length =>
          let next := start + frameHeaderBytes + length
          if next > bytes.length then 0 else framesFrom bytes fuel next + 1

def framesIn (bytes : Bytes) : Nat := framesFrom bytes bytes.length 0

def lastPositionFrom (bytes : Bytes) : (fuel start : Nat) → (last : Option Nat) → Option Nat
  | 0, _, last => last
  | fuel + 1, start, last =>
      match getU32 bytes start, getU64 bytes (start + 4) with
      | .ok length, .ok position =>
          let next := start + frameHeaderBytes + length
          if next > bytes.length then last
          else lastPositionFrom bytes fuel next (some position)
      | _, _ => last

def lastPositionIn (bytes : Bytes) : Option Nat := lastPositionFrom bytes bytes.length 0 none

def frameBoundaryFrom (bytes : Bytes) (limit : Nat) : (fuel start : Nat) → Nat
  | 0, start => start
  | fuel + 1, start =>
      match getU32 bytes start with
      | .error _ => start
      | .ok length =>
          let next := start + frameHeaderBytes + length
          if next > bytes.length ∨ next > limit then
            if start = 0 then min next bytes.length else start
          else frameBoundaryFrom bytes limit fuel next

/-- The largest whole number of frames inside `limit` bytes, and at least one. -/
def frameBoundaryBefore (bytes : Bytes) (limit : Nat) : Nat :=
  frameBoundaryFrom bytes limit (bytes.length + 1) 0

/-- The walk of `reclaim_through` to the first frame it must keep. -/
def keepFrom (bytes : Bytes) (through : Nat) : (fuel start : Nat) → Except WalError Nat
  | 0, start => .ok start
  | fuel + 1, start =>
      if start < bytes.length then
        match getU32 bytes start, getU64 bytes (start + 4) with
        | .ok length, .ok position =>
            if position > through then .ok start
            else
              let next := start + frameHeaderBytes + length
              if next > bytes.length then .ok start else keepFrom bytes through fuel next
        | .error e, _ => .error (.ofFormat e)
        | _, .error e => .error (.ofFormat e)
      else .ok start

structure Recovered where
  frames : List Frame
  durableBytes : Nat
  nextPosition : Nat
  headerChecksummed : Bool
  deriving DecidableEq

def nothingRecovered : Recovered := ⟨[], 0, 0, true⟩

section
variable (hash : Bytes → UInt64)

/-- Every complete frame from `start` on, where the complete part ends, and one
past the highest position. -/
def scanFrames (bytes : Bytes) (headerChecksummed : Bool) :
    (fuel start next : Nat) → List Frame × Nat × Nat
  | 0, start, next => ([], start, next)
  | fuel + 1, start, next =>
      if start < bytes.length then
        match frameAt hash bytes start headerChecksummed with
        | none => ([], start, next)
        | some (position, stop) =>
            let payload := (bytes.drop (start + frameHeaderBytes)).take
              (stop - (start + frameHeaderBytes))
            let rest := scanFrames bytes headerChecksummed fuel stop (max next (position + 1))
            (⟨position, payload⟩ :: rest.1, rest.2)
      else ([], start, next)

/-- The first acknowledged frame that still reads back beyond the complete part. -/
def acceptedBeyond (bytes : Bytes) (headerChecksummed : Bool)
    (complete next acknowledged : Nat) : Option Nat :=
  let offsets := List.range' (complete + 1) (bytes.length - (complete + 1))
  let wanted := offsets.filter fun offset =>
    match getU64 bytes (offset + 4) with
    | .ok position => next ≤ position && position ≤ acknowledged
    | .error _ => false
  (wanted.filterMap fun offset =>
    (frameAt hash bytes offset headerChecksummed).map Prod.fst).head?

def damagedInTheMiddle (path : String) (complete position : Nat) : String :=
  s!"The append log {path} is damaged in the middle, at byte {complete}, and it holds " ++
  s!"accepted data after the damage (log position {position}). We did not cut the " ++
  "file, because that would discard the accepted data. Restore the file from a " ++
  "copy. If there is no copy, move the file away and start again: the data in it " ++
  "that was not yet stored elsewhere is then lost, and TallyOwl will not report " ++
  "it as stored."

/-- Read every complete frame, and say where the complete part ends. `none` for
the file is a path that does not exist. -/
def recover (path : String) (file : Option Bytes) (acknowledged : Option Nat) :
    Except WalError Recovered :=
  match file with
  | none => .ok nothingRecovered
  | some bytes =>
      if bytes.length < walMagic.length then .ok nothingRecovered
      else
        let magic := bytes.take walMagic.length
        if magic = walMagic ∨ magic = walMagicV1 then
          let headerChecksummed : Bool := magic = walMagic
          let read := scanFrames hash bytes headerChecksummed bytes.length walMagic.length 0
          let complete := read.2.1
          let next := read.2.2
          let beyond := match acknowledged with
            | some through =>
                if complete < bytes.length then
                  acceptedBeyond hash bytes headerChecksummed complete next through
                else none
            | none => none
          match beyond with
          | some position => .error (.damaged (damagedInTheMiddle path complete position))
          | none => .ok ⟨read.1, complete, next, headerChecksummed⟩
        else
          .error (.damaged
            s!"The file {path} is where the append log should be and is not one.")

end
end TallyOwl.Wal
