import TallyOwl.Collector.Intake

/-! What the app driver (`driver.rs` of `tallyowl-driver-rust`) makes of items and of answers: the buffer,
the sealed batches and the receipts. The generated codec is a parameter. -/
open List

namespace TallyOwl.Driver
open Lib Wire
open Collector (ErrorCode SubmitBatchRequest SubmitBatchResponse)

structure TallyOwlError where
  code : ErrorCode
  message : String
  retryable : Bool
  detail : List (String × String)
  deriving DecidableEq

def retryableByDefault : ErrorCode → Bool
  | .unavailable | .resourceExhausted | .internal => true
  | _ => false

namespace TallyOwlError

def new (code : ErrorCode) (message : String) : TallyOwlError := ⟨code, message, retryableByDefault code, []⟩

def withDetail (e : TallyOwlError) (key value : String) : TallyOwlError :=
  { e with detail := e.detail ++ [(key, value)] }

def invalidArgument (message : String) : TallyOwlError := new .invalidArgument message

def unavailable (message : String) : TallyOwlError := new .unavailable message

def internal (message : String) : TallyOwlError := new .internal message

def overLimit (subject observed limit remedy : String) : TallyOwlError :=
  (({ new .resourceExhausted s!"{subject} rejected. It holds {observed} and the limit is {limit}. {remedy}" with
    retryable := false }).withDetail "observed" observed).withDetail "limit" limit

end TallyOwlError

def frameAllowance : ℕ := 512

def retryAfterDetail : String := "retry_after_ms"

def protocolVersion : ℕ := 1

structure Settings where
  collectorAddress : String
  maxItems : ℕ
  maxBatchBytes : ℕ
  linger : ℕ
  maxFrameBytes : ℕ
  maxUnacknowledgedBytes : ℕ
  maxInFlightBatches : ℕ
  maxBatchAttempts : ℕ
  callTimeout : ℕ
  retryBackoffMin : ℕ
  retryBackoffMax : ℕ
  properties : List (String × String)
  dryRun : Bool
  word : maxUnacknowledgedBytes < 2 ^ 64

structure ServiceError where
  code : ErrorCode
  message : String
  retryable : Bool

structure Codec where
  encodeTelemetryItem : TelemetryItem → Bytes
  encodeSubmitBatchRequest : SubmitBatchRequest → Bytes
  decodeServiceError : Bytes → Except String ServiceError
  decodeSubmitBatchResponse : Bytes → Except String SubmitBatchResponse
  written : ∀ item, encodeTelemetryItem item ≠ []

def Codec.size (c : Codec) (item : TelemetryItem) : ℕ := (c.encodeTelemetryItem item).length

theorem Codec.size_pos (c : Codec) (item : TelemetryItem) : 0 < c.size item :=
  length_pos_iff.mpr (c.written item)

structure Capture where
  item : TelemetryItem
  critical : Bool

/-- What the application has said and nothing has sealed yet. -/
structure Buffer where
  items : List TelemetryItem
  sizes : List ℕ
  bytes : ℕ
  openedAt : Option ℕ
  sealNow : Bool

def Buffer.empty : Buffer := ⟨[], [], 0, none, false⟩

structure Pending where
  batchId : Bytes
  encoded : Bytes
  items : ℕ
  bytes : ℕ
  attempts : ℕ
  order : ℕ
  deriving DecidableEq

structure Rejected where
  eventId : Bytes
  code : ErrorCode
  message : String

structure Receipt where
  batchId : Bytes
  accepted : ℕ
  durableCopies : ℕ
  rejected : List Rejected

def Receipt.merge (earlier later : Receipt) : Receipt where
  batchId := later.batchId
  accepted := earlier.accepted + later.accepted
  durableCopies := min earlier.durableCopies later.durableCopies
  rejected := earlier.rejected ++ later.rejected

section
variable (s : Settings) (c : Codec)

/-- An item with its number and with what the driver says of every item. -/
def stamped (sequence : ℕ) (item : TelemetryItem) : TelemetryItem :=
  { item with envelope := { item.envelope with
      sequence := some sequence
      properties := item.envelope.properties ++
        s.properties.map fun entry => property entry.1 (.text entry.2) .driver } }

def prepare (sequence : ℕ) (item : TelemetryItem) : Except TallyOwlError (TelemetryItem × ℕ) :=
  let item := stamped s sequence item
  let size := c.size item
  if s.maxFrameBytes < size + frameAllowance then
    .error (.overLimit "Event" s!"{size / 1024} KiB" s!"{s.maxFrameBytes / 1024} KiB"
      "The event was not recorded. Send fewer or smaller properties, or raise `max_frame_bytes` for this driver.")
  else .ok (item, size)

/-- An item into the buffer, by what of the account was read before. -/
def admitItem (buffer : Buffer) (sealedBytes : ℕ) (item : TelemetryItem) (size : ℕ) (critical : Bool)
    (now : ℕ) : Except TallyOwlError Buffer :=
  if s.maxUnacknowledgedBytes < buffer.bytes + sealedBytes + size then
    .error { TallyOwlError.new .resourceExhausted
      "This application is producing telemetry faster than TallyOwl is accepting it. The event was not recorded. Send fewer events, or give the collector more capacity." with
      retryable := true }
  else .ok {
    items := buffer.items ++ [item]
    sizes := buffer.sizes ++ [size]
    bytes := buffer.bytes + size
    openedAt := some (buffer.openedAt.getD now)
    sealNow := critical || buffer.sealNow }

def sealReached (buffer : Buffer) (now : ℕ) : Bool :=
  !buffer.items.isEmpty && (buffer.sealNow || s.maxItems ≤ buffer.items.length ||
    s.maxBatchBytes ≤ buffer.bytes || buffer.openedAt.any fun opened => s.linger ≤ now - opened)

/-- How many items the next batch takes, and their bytes. The first item always goes. -/
def fill (budget most : ℕ) : ℕ → ℕ → List ℕ → ℕ × ℕ
  | count, bytes, [] => (count, bytes)
  | count, bytes, next :: rest =>
      if count < most ∧ ¬ (0 < count ∧ budget < bytes + next) then
        fill budget most (count + 1) (bytes + next) rest
      else (count, bytes)

def budget : ℕ := min s.maxBatchBytes (s.maxFrameBytes - frameAllowance)

/-- The items of the next batch, their bytes, and the buffer that they leave. -/
def drained (buffer : Buffer) (now : ℕ) : List TelemetryItem × ℕ × Buffer :=
  let (count, bytes) := fill (budget s) (max s.maxItems 1) 0 0 buffer.sizes
  let items := buffer.items.drop count
  (buffer.items.take count, bytes, {
    items
    sizes := buffer.sizes.drop count
    bytes := buffer.bytes - bytes
    openedAt := if items.isEmpty then none else some now
    sealNow := if items.isEmpty then false else buffer.sealNow })

def sealed (taken : List TelemetryItem) (bytes order : ℕ) (batchId : Bytes) (sealedAt : Int) : Pending where
  batchId := batchId
  encoded := c.encodeSubmitBatchRequest ⟨⟨batchId, taken, none, sealedAt⟩, none, some protocolVersion⟩
  items := taken.length
  bytes := bytes
  attempts := 0
  order := order

def backoffDelay (failures least most random : ℕ) : ℕ :=
  let ceiling := max (min (min (least * 2 ^ min (failures - 1) 40) (2 ^ 128 - 1)) most) 1
  let half := ceiling / 2
  min (half + random % (ceiling - half + 1)) (2 ^ 64 - 1)

end

inductive TransportStatus where
  | ok | unavailable | deadlineExceeded | unauthenticated | forbidden | internal | other
  deriving DecidableEq

structure Response where
  status : TransportStatus
  error : Option String
  variant : Option String
  payload : Bytes

def serviceErrorVariant : String := "ServiceError"

inductive ReceiptFailure where
  | refused (e : TallyOwlError)
  | ambiguous (e : TallyOwlError)

def unauthenticated (said : String) : TallyOwlError :=
  { TallyOwlError.new .unauthenticated
    s!"The collector did not accept the key this application holds. Check the credential in the driver settings, and ask the person who runs TallyOwl whether the key was revoked. {said}" with
    retryable := false }

/-- One collector reply as a receipt, or as the reason there is none. -/
def readReceipt (c : Codec) (batchId : Bytes) (response : Response) : Except ReceiptFailure Receipt :=
  let said := response.error.getD ""
  match response.status with
  | .unavailable | .deadlineExceeded =>
      .error (.refused (.unavailable s!"The collector could not take the batch now. {said}"))
  | .unauthenticated => .error (.refused (unauthenticated said))
  | .forbidden => .error (.refused (.new .permissionDenied s!"The collector refused the batch. {said}"))
  | .internal =>
      .error (.ambiguous (.internal s!"The collector failed while it handled the batch. {said}"))
  | .other => .error (.refused (.invalidArgument
      s!"The collector could not read the batch, and it will not read it on another attempt either. {said}"))
  | .ok =>
      if response.variant = some serviceErrorVariant then
        match c.decodeServiceError response.payload with
        | .error e =>
            .error (.ambiguous (.internal s!"The collector returned an error we could not read: {e}"))
        | .ok error =>
            .error (.refused (if error.code = .unauthenticated then unauthenticated error.message
              else { TallyOwlError.new error.code error.message with retryable := error.retryable }))
      else
        match c.decodeSubmitBatchResponse response.payload with
        | .error e =>
            .error (.ambiguous (.internal s!"The collector returned a receipt we could not read: {e}"))
        | .ok receipt => .ok ⟨batchId, receipt.accepted, receipt.durableCopies,
            (receipt.rejected.getD []).map fun r => ⟨r.eventId, r.code, r.message⟩⟩

def retained (held : List Pending) (batch : Pending) : List Pending :=
  held.insertIdx (held.findIdx fun other => batch.order < other.order) batch

def lossNote (batch : Pending) (reason : TallyOwlError) : TallyOwlError :=
  ⟨reason.code, s!"{batch.items} events were not recorded, and the app driver will not send them again. {reason.message}",
    false, reason.detail⟩

theorem retained_perm (held : List Pending) (batch : Pending) : (retained held batch).Perm (batch :: held) :=
  perm_insertIdx _ _ findIdx_le_length

theorem fill_eq (budget most count bytes : ℕ) (sizes : List ℕ) : ∃ k ≤ sizes.length,
    fill budget most count bytes sizes = (count + k, bytes + (sizes.take k).sum) := by
  induction sizes generalizing count bytes with
  | nil => exact ⟨0, le_rfl, rfl⟩
  | cons next rest ih =>
    unfold fill
    split
    · obtain ⟨k, small, filled⟩ := ih (count + 1) (bytes + next)
      refine ⟨k + 1, Nat.succ_le_succ small, ?_⟩
      rw [filled, take_succ_cons, sum_cons, Nat.add_right_comm, Nat.add_assoc bytes]
      rfl
    · exact ⟨0, Nat.zero_le _, rfl⟩

end TallyOwl.Driver
