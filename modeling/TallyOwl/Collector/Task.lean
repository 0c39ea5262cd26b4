import TallyOwl.Collector.Resolver

/-! The delivery task (`task.rs`): what intake puts in the queue and a forwarder takes out. How a batch
and a task are written, and the compression of one, are parameters. -/
namespace TallyOwl.Delivery
open Lib Wire
open Collector (ErrorCode)
open Resolver (TallyOwlError)

inductive Compression where
  | none | zstd
  deriving DecidableEq

/-- `β` is what a batch is written as. -/
structure DeliveryTask (β : Type) where
  taskVersion : ℕ
  batchId : Bytes
  sourceId : Bytes
  batch : β
  compression : Compression
  uncompressedBytes : ℕ
  attempts : ℕ
  acceptedAt : Int
  lastAttemptAt : Option Int
  nextAttemptAt : Option Int
  lastFailure : Option String

structure Codec (π β : Type) where
  encodeBatch : Batch → β
  decodeBatch : β → Except String Batch
  length : β → ℕ
  encodeAll : β → Option β
  decompress : β → ℕ → Except String β
  encodeDeliveryTask : DeliveryTask β → π
  decodeDeliveryTask : π → Except String (DeliveryTask β)

structure Codec.Lawful {π β : Type} (codec : Codec π β) : Prop where
  batch : ∀ b, codec.decodeBatch (codec.encodeBatch b) = .ok b
  compressed : ∀ x y, codec.encodeAll x = some y → codec.decompress y (codec.length x) = .ok x
  task : ∀ t, codec.decodeDeliveryTask (codec.encodeDeliveryTask t) = .ok t

def taskVersion : ℕ := 1

def compressAboveBytes : ℕ := 1024

def invalidArgument (message : String) : TallyOwlError := ⟨.invalidArgument, message, false⟩

section
variable {π β : Type} (codec : Codec π β)

def sealed (batch : Batch) (sourceId : Bytes) (acceptedAt : Int) : DeliveryTask β :=
  let encoded := codec.encodeBatch batch
  let (payload, compression) :=
    if compressAboveBytes < codec.length encoded then
      match codec.encodeAll encoded with
      | some squeezed =>
          if codec.length squeezed < codec.length encoded then (squeezed, Compression.zstd)
          else (encoded, Compression.none)
      | none => (encoded, Compression.none)
    else (encoded, Compression.none)
  { taskVersion := taskVersion
    batchId := batch.batchId
    sourceId
    batch := payload
    compression
    uncompressedBytes := codec.length encoded
    attempts := 0
    acceptedAt
    lastAttemptAt := none
    nextAttemptAt := none
    lastFailure := none }

def decode (payload : π) : Except TallyOwlError (DeliveryTask β) :=
  match codec.decodeDeliveryTask payload with
  | .error e => .error (invalidArgument s!"The stored batch could not be read: {e}")
  | .ok task =>
      if taskVersion < task.taskVersion then
        .error ⟨.schemaUnsupported, s!"This batch was queued by a newer version of TallyOwl. It says task version {task.taskVersion}, and this collector reads version {taskVersion}. Upgrade this collector, or leave the batch for one that is already upgraded.", false⟩
      else .ok task

def produced (task : DeliveryTask β) : Except TallyOwlError β :=
  match task.compression with
  | .none => .ok task.batch
  | .zstd =>
      match codec.decompress task.batch task.uncompressedBytes with
      | .error e => .error (invalidArgument s!"The stored batch could not be uncompressed: {e}")
      | .ok bytes =>
          if codec.length bytes = task.uncompressedBytes then .ok bytes
          else .error (invalidArgument s!"The stored batch says it holds {task.uncompressedBytes} bytes and holds {codec.length bytes}.")

/-- The batch that a task carries (`task::open`). -/
def opened (task : DeliveryTask β) (maxBytes : ℕ) : Except TallyOwlError Batch :=
  if maxBytes < task.uncompressedBytes then
    .error ⟨.resourceExhausted, s!"Queued batch rejected. It holds {task.uncompressedBytes} bytes and the limit is {maxBytes} bytes. Lower the batch seal size, or raise `corndogs.maxPayloadBytes`.", false⟩
  else
    match produced codec task with
    | .error e => .error e
    | .ok bytes =>
        match codec.decodeBatch bytes with
        | .error e => .error (invalidArgument s!"The stored batch could not be read: {e}")
        | .ok batch => .ok batch

def clamp (text : String) (most : ℕ) : String :=
  if text.length ≤ most then text else String.ofList (text.toList.take (most - 1)) ++ "…"

def noteAttempt (task : DeliveryTask β) (moment delayMs : Int) (failure : String) : DeliveryTask β :=
  { task with
    attempts := task.attempts + 1
    lastAttemptAt := some moment
    nextAttemptAt := some (moment + delayMs)
    lastFailure := some (clamp failure 512) }

/-- A task that carries an accepted batch, however often it was attempted. -/
structure Carries (batch : Batch) (sourceId : Bytes) (task : DeliveryTask β) : Prop where
  source : task.sourceId = sourceId
  body : task.batch = (sealed codec batch sourceId 0).batch
  compression : task.compression = (sealed codec batch sourceId 0).compression
  size : task.uncompressedBytes = (sealed codec batch sourceId 0).uncompressedBytes

variable {codec} {batch : Batch} {sourceId : Bytes} {t : DeliveryTask β}

theorem carries_sealed (acceptedAt : Int) : Carries codec batch sourceId (sealed codec batch sourceId acceptedAt) :=
  ⟨rfl, rfl, rfl, rfl⟩

theorem Carries.noted (carries : Carries codec batch sourceId t) (moment delayMs : Int) (failure : String) :
    Carries codec batch sourceId (noteAttempt t moment delayMs failure) :=
  ⟨carries.source, carries.body, carries.compression, carries.size⟩

theorem produced_of_carries (lawful : codec.Lawful) (carries : Carries codec batch sourceId t) :
    produced codec t = .ok (codec.encodeBatch batch) := by
  unfold produced
  rw [carries.body, carries.compression, carries.size]
  unfold sealed
  by_cases large : compressAboveBytes < codec.length (codec.encodeBatch batch)
  · cases squeezed : codec.encodeAll (codec.encodeBatch batch) with
    | none => simp [large, squeezed]
    | some small =>
      by_cases smaller : codec.length small < codec.length (codec.encodeBatch batch)
      · simp [large, squeezed, smaller, lawful.compressed _ _ squeezed]
      · simp [large, squeezed, smaller]
  · simp [large]

theorem opened_of_carries (lawful : codec.Lawful) (carries : Carries codec batch sourceId t) {maxBytes : ℕ}
    {b : Batch} (read : opened codec t maxBytes = .ok b) : b = batch := by
  unfold opened at read
  split at read
  · cases read
  · rw [produced_of_carries lawful carries] at read
    simp only [lawful.batch] at read
    exact (Except.ok.inj read).symm

theorem decode_encode (lawful : codec.Lawful) {payload : π} {task : DeliveryTask β}
    (written : payload = codec.encodeDeliveryTask task) {d : DeliveryTask β}
    (read : decode codec payload = .ok d) : d = task := by
  unfold decode at read
  rw [written, lawful.task] at read
  simp only at read
  split at read
  · cases read
  · exact (Except.ok.inj read).symm

end

end TallyOwl.Delivery
