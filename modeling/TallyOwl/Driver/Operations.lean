import TallyOwl.Driver.Batches
import TallyOwl.Lib.Runs

/-! The driver at work (`Inner` of `driver.rs`). Any number of threads capture, and one delivery
operation at a time runs under its lock. A step ends where another thread can see what it did: the lock
of the buffer, and the account of the sealed bytes that a capture reads without it. -/
namespace TallyOwl.Driver
open Lib Wire

/-- An atomic account of one machine word wraps around at both ends. -/
def fetchAdd (x y : ℕ) : ℕ := if x + y < 2 ^ 64 then x + y else x + y - 2 ^ 64

def fetchSub (x y : ℕ) : ℕ := if y ≤ x then x - y else x + 2 ^ 64 - y

/-- The lifetime totals only rise. The sealed bytes and the unacknowledged items fall too. -/
structure Counters where
  captured : ℕ
  refused : ℕ
  accepted : ℕ
  rejected : ℕ
  lost : ℕ
  sealedBytes : ℕ
  unacknowledgedItems : ℕ
  sealed : ℕ

structure Pipeline where
  nextId : ℕ
  inFlight : ℕ

def Pipeline.new : Pipeline := ⟨1, 0⟩

def Pipeline.reset (p : Pipeline) : Pipeline := { p with inFlight := 0 }

structure Outbox where
  pipeline : Pipeline
  broken : Option TallyOwlError
  pending : List (ℕ × Pending)
  established : Bool

def Outbox.new (broken : Option TallyOwlError) : Outbox := ⟨.new, broken, [], false⟩

def Outbox.hasRoom (s : Settings) (outbox : Outbox) : Bool :=
  outbox.pipeline.inFlight < max s.maxInFlightBatches 1

def Outbox.sent (outbox : Outbox) (batch : Pending) : Outbox where
  pipeline := ⟨outbox.pipeline.nextId + 1, outbox.pipeline.inFlight + 1⟩
  broken := outbox.broken
  pending := outbox.pending.filter (fun entry => entry.1 ≠ outbox.pipeline.nextId) ++
    [(outbox.pipeline.nextId, batch)]
  established := true

def removed (id : ℕ) : List (ℕ × Pending) → Option (Pending × List (ℕ × Pending))
  | [] => none
  | entry :: rest =>
      if entry.1 = id then some (entry.2, rest)
      else (removed id rest).map fun found => (found.1, entry :: found.2)

structure Delivery where
  outbox : Option Outbox
  retained : List Pending
  collected : List Receipt
  failures : ℕ
  nextAttempt : Option ℕ
  lastFailure : Option TallyOwlError
  freeRetryUsed : Bool
  notes : List TallyOwlError

def Delivery.new : Delivery := ⟨none, [], [], 0, none, none, false, []⟩

def Delivery.onTheWire (d : Delivery) : List (ℕ × Pending) := (d.outbox.map Outbox.pending).getD []

/-- A shutdown calls `drain` and `flush` by turns, on a thread of its own. -/
inductive Call where
  | flush | submit | drain
  deriving DecidableEq

/-- A delivery operation under way, with the receipts it has so far. -/
inductive Work where
  | flush (merged : Option Receipt)
  | submit (receipts : List Receipt)
  | drain (receipts : List Receipt)

/-- Where an operation is: at the head of its loop, where it makes room, where it takes a batch, and
where a flush waits for the answer to its own. -/
inductive Spot where
  | top | room | takes
  | listens (order : ℕ)

inductive Stage where
  | idle
  | runs (work : Work) (spot : Spot)
  | drains (work : Work) (taken : List TelemetryItem) (bytes : ℕ)
  | measures (work : Work) (batch : Pending)
  | hands (work : Work) (batch : Pending)
  | fails (work : Work) (again : Spot) (held : List Pending) (error : TallyOwlError) (established : Bool)

structure Prepared where
  item : TelemetryItem
  size : ℕ
  critical : Bool
  waits : Bool

/-- A capture inside the lock, with the sealed bytes that it read. -/
structure Admission where
  prepared : Prepared
  sealedBytes : ℕ

structure Frame where
  order : ℕ
  batchId : Bytes
  payload : Bytes

/-- The sealed batches in order, those that were settled, and the frames are there for the statements. -/
structure World where
  sequence : ℕ
  prepared : List Prepared
  admission : Option Admission
  buffer : Buffer
  counters : Counters
  delivery : Delivery
  stage : Stage
  told : List TallyOwlError
  answers : List (Except TallyOwlError Work)
  batches : List Pending
  settled : List ℕ
  frames : List Frame

def World.new : World := ⟨0, [], none, .empty, ⟨0, 0, 0, 0, 0, 0, 0, 0⟩, .new, .idle, [], [], [], [], []⟩

/-- What the world outside answers within one step of an operation. -/
structure Turn where
  now : ℕ := 0
  random : ℕ := 0
  elapsed : ℕ := 0
  batchId : Bytes := []
  sealedAt : Int := 0
  built : Except TallyOwlError Unit := .ok ()
  sent : Except TallyOwlError Unit := .ok ()
  heard : Except TallyOwlError (ℕ × Response) := .ok (0, ⟨.ok, none, none, []⟩)
  place : ℕ := 0

inductive Event where
  | captures (capture : Capture) (waits : Bool)
  | enters (thread : ℕ)
  | leaves (thread : ℕ)
  | admits (now : ℕ)
  | calls (call : Call) (now : ℕ)
  | ticks (shouldFlush retainedIsDue : Bool) (onTheWire now : ℕ)
  | turns (turn : Turn)
  /-- The end of a shutdown, which drops a connection that nothing waits for. -/
  | closes

section

def Counters.settle (counters : Counters) (batch : Pending) : Counters := { counters with
  sealedBytes := fetchSub counters.sealedBytes batch.bytes
  unacknowledgedItems := fetchSub counters.unacknowledgedItems batch.items }

variable (w : World)

def World.retain (batch : Pending) : World :=
  { w with delivery := { w.delivery with retained := retained w.delivery.retained batch } }

def World.acknowledged (batch : Pending) (receipt : Receipt) : World :=
  let counters := w.counters.settle batch
  { w with
    counters := { counters with
      accepted := counters.accepted + receipt.accepted
      rejected := counters.rejected + receipt.rejected.length }
    delivery := { w.delivery with failures := 0, freeRetryUsed := false, nextAttempt := none }
    settled := w.settled ++ [batch.order] }

/-- Give a batch up. Every item in it is counted, and the host is told. -/
def World.lose (batch : Pending) (reason : TallyOwlError) : World :=
  let counters := w.counters.settle batch
  { w with
    counters := { counters with lost := counters.lost + batch.items }
    delivery := { w.delivery with notes := w.delivery.notes ++ [lossNote batch reason] }
    settled := w.settled ++ [batch.order] }

def World.retainOrLose (s : Settings) (batch : Pending) (error : TallyOwlError) : World :=
  if s.maxBatchAttempts ≤ batch.attempts then
    w.lose batch (.unavailable s!"A batch left {batch.attempts} times and no answer came back. {error.message}")
  else w.retain batch

def World.noteFailure (s : Settings) (error : TallyOwlError) (retryNow : Bool) (now random : ℕ) : World :=
  let d := { w.delivery with lastFailure := some error }
  { w with delivery :=
      if retryNow then { d with freeRetryUsed := true, nextAttempt := none }
      else
        let failures := min (d.failures + 1) (2 ^ 32 - 1)
        { d with
          failures
          nextAttempt := some (now + backoffDelay failures s.retryBackoffMin s.retryBackoffMax random) } }

/-- The operation ends, its lock is free, and the host hears its failures. -/
def World.ends (work : Work) (result : Except TallyOwlError Unit) : World :=
  let kept : List Receipt := match work, result with
    | .submit receipts, .error _ | .drain receipts, .error _ => receipts
    | _, _ => []
  { w with
    delivery := { w.delivery with collected := w.delivery.collected ++ kept, notes := [] }
    stage := .idle
    told := w.told ++ w.delivery.notes
    answers := w.answers ++ [result.map fun _ => work] }

def World.runs (work : Work) (spot : Spot) : World := { w with stage := .runs work spot }

def World.collects (receipt : Receipt) : World :=
  { w with delivery := { w.delivery with collected := w.delivery.collected ++ [receipt] } }

end

/-- The error a caller gets while the wait after a failed attempt is open. -/
def waiting (s : Settings) (d : Delivery) (now : ℕ) : Option TallyOwlError := do
  let moment ← d.nextAttempt
  if moment ≤ now then none
  else
    let millis := max ((moment - now + 999999) / 1000000) 1
    let reason := (d.lastFailure.map TallyOwlError.message).getD ""
    some ((TallyOwlError.unavailable s!"The last attempt to reach {s.collectorAddress} failed, and the next one is in {millis} ms. The telemetry is retained and will be sent again. {reason}").withDetail
      retryAfterDetail (toString millis))

def tick (shouldFlush retainedIsDue : Bool) (onTheWire : ℕ) : Option Call :=
  if shouldFlush || retainedIsDue then some .submit
  else if 0 < onTheWire then some .drain
  else none

namespace Work

def afterSend (order : ℕ) : Work → Spot
  | .flush _ => .listens order
  | .submit _ => .top
  | .drain _ => .takes

def next : Work → Spot
  | .flush _ | .submit _ => .top
  | .drain _ => .takes

def add (receipt : Receipt) : Work → Work
  | .flush none => .flush (some receipt)
  | .flush (some earlier) => .flush (some (earlier.merge receipt))
  | .submit receipts => .submit (receipts ++ [receipt])
  | .drain receipts => .drain (receipts ++ [receipt])

end Work

/-- Where an operation goes on at once behind a connection that failed while it listened. -/
def Spot.again : Spot → Spot
  | .room => .takes
  | _ => .top

section
variable (s : Settings) (c : Codec) (w : World)

/-- The operation begins, unless the wait after a failure is open. -/
def World.calls (call : Call) (now : ℕ) : World :=
  match call with
  | .flush => match waiting s w.delivery now with
      | some wait => w.ends (.flush none) (.error wait)
      | none => w.runs (.flush none) .top
  | .submit => match waiting s w.delivery now with
      | some wait => w.ends (.submit []) (.error wait)
      | none => { w with delivery := { w.delivery with collected := [] } }.runs
          (.submit w.delivery.collected) .top
  | .drain => { w with delivery := { w.delivery with collected := [] } }.runs
      (.drain w.delivery.collected) .top

def World.outbox (turn : Turn) : Outbox :=
  w.delivery.outbox.getD (.new (match turn.built with
    | .ok _ => none
    | .error e => some e))

def World.setOutbox (outbox : Outbox) : World :=
  { w with delivery := { w.delivery with outbox := some outbox } }

/-- The connection failed. Everything on the wire has an unknown result. -/
def World.fails (work : Work) (again : Spot) (outbox : Outbox) (error : TallyOwlError)
    (established : Bool) : World :=
  { w.setOutbox ⟨outbox.pipeline.reset, outbox.broken, [], false⟩ with
    stage := .fails work again (outbox.pending.map Prod.snd) error established }

def World.sends (work : Work) (batch : Pending) (turn : Turn) : World :=
  let outbox := w.outbox turn
  match outbox.broken with
  | some error =>
      (({ w with delivery := { w.delivery with outbox := none } }.retain batch).noteFailure s error false
        turn.now turn.random).ends work (.error error)
  | none =>
      let w : World := { w with frames := w.frames ++ [⟨batch.order, batch.batchId, batch.encoded⟩] }
      match turn.sent with
      | .ok _ => (w.setOutbox (outbox.sent batch)).runs work (work.afterSend batch.order)
      | .error error => (w.retain batch).fails work work.next outbox error outbox.established

def World.answered (work : Work) (spot : Spot) (order : ℕ) (outcome : Except TallyOwlError Receipt) : World :=
  match work, spot, outcome with
  | .flush merged, .listens own, outcome =>
      if order = own then
        match outcome with
        | .ok receipt => w.runs ((Work.flush merged).add receipt) .top
        | .error e => w.ends work (.error e)
      else match outcome with
        | .ok receipt => (w.collects receipt).runs work spot
        | .error _ => w.runs work spot
  | .flush _, _, .ok receipt => (w.collects receipt).runs work spot
  | .flush _, _, .error _ => w.runs work spot
  | _, _, .ok receipt => w.runs (work.add receipt) spot
  | _, _, .error e => w.ends work (.error e)

def World.collect (work : Work) (spot : Spot) (turn : Turn) : World :=
  let outbox := w.outbox turn
  if outbox.pipeline.inFlight = 0 then
    (w.setOutbox outbox).ends work
      (.error (.internal "There was no batch waiting for an acknowledgement."))
  else match turn.heard with
    | .error error => w.fails work spot.again outbox error outbox.established
    | .ok (id, response) =>
        let pipeline : Pipeline := { outbox.pipeline with inFlight := outbox.pipeline.inFlight - 1 }
        match removed id outbox.pending with
        | none => w.fails work spot.again { outbox with pipeline }
            (.internal "The collector answered a batch this application did not send.") false
        | some (batch, pending) =>
            let w := w.setOutbox { outbox with pipeline, pending }
            match readReceipt c batch.batchId response with
            | .ok receipt => (w.acknowledged batch receipt).answered work spot batch.order (.ok receipt)
            | .error (.refused error) =>
                if error.retryable then
                  ((w.retain batch).noteFailure s error false turn.now turn.random).answered work spot
                    batch.order (.error error)
                else (w.lose batch error).answered work spot batch.order (.error error)
            | .error (.ambiguous error) =>
                ((w.retainOrLose s { batch with attempts := batch.attempts + 1 } error).noteFailure s error
                  false turn.now turn.random).answered work spot batch.order (.error error)

/-- The next batch to send: the oldest retained one, or a new seal. A drain seals nothing. -/
def World.takes (work : Work) (now : ℕ) : Option World :=
  match work, w.delivery.retained with
  | _, batch :: rest => some { w with
      delivery := { w.delivery with retained := rest }
      stage := .hands work batch }
  | .drain _, [] => some (w.runs work .top)
  | _, [] =>
      if w.admission.isSome then none
      else if w.buffer.items.isEmpty then some (w.ends work (.ok ()))
      else
        let (taken, bytes, buffer) := drained s w.buffer now
        some { w with buffer, stage := .drains work taken bytes }

def World.seals (work : Work) (taken : List TelemetryItem) (bytes : ℕ) (turn : Turn) : World :=
  let batch := sealed c taken bytes w.counters.sealed turn.batchId turn.sealedAt
  { w with
    counters := { w.counters with
      sealedBytes := fetchAdd w.counters.sealedBytes bytes
      unacknowledgedItems := fetchAdd w.counters.unacknowledgedItems taken.length
      sealed := w.counters.sealed + 1 }
    stage := .measures work batch
    batches := w.batches ++ [batch] }

def World.measures (work : Work) (batch : Pending) : World :=
  if s.maxFrameBytes < batch.encoded.length then
    let error := TallyOwlError.overLimit "Batch" s!"{batch.encoded.length / 1024} KiB"
      s!"{s.maxFrameBytes / 1024} KiB" "Set `max_batch_bytes` below `max_frame_bytes` for this driver."
    (w.lose batch error).ends work (.error error)
  else { w with stage := .hands work batch }

def World.hands (work : Work) (batch : Pending) (turn : Turn) : World :=
  if s.dryRun then
    let receipt : Receipt := ⟨batch.batchId, batch.items, 0, []⟩
    (w.acknowledged batch receipt).runs (work.add receipt) work.next
  else w.sends s work batch turn

/-- The next of the batches of a failed connection goes back, or the failure is noted. -/
def World.failsOn (work : Work) (again : Spot) (held : List Pending) (error : TallyOwlError)
    (established : Bool) (turn : Turn) : Option World :=
  if held.isEmpty then
    let fast := s.callTimeout = 0 || turn.elapsed < s.callTimeout / 2
    let retryNow := established && fast && !w.delivery.freeRetryUsed && w.delivery.failures = 0
    let noted := w.noteFailure s error retryNow turn.now turn.random
    some (if retryNow then noted.runs work again else noted.ends work (.error error))
  else held[turn.place]?.map fun batch =>
    { w.retainOrLose s { batch with attempts := batch.attempts + 1 } error with
      stage := .fails work again (held.eraseIdx turn.place) error established }

def World.top (work : Work) (turn : Turn) : World :=
  match work with
  | .flush _ | .submit _ =>
      if w.delivery.retained.isEmpty && w.buffer.items.isEmpty then w.ends work (.ok ())
      else w.runs work .room
  | .drain _ =>
      if w.delivery.onTheWire.isEmpty then
        if w.delivery.retained.isEmpty then w.ends work (.ok ())
        else match waiting s w.delivery turn.now with
          | some wait => w.ends work (.error wait)
          | none => w.runs work .takes
      else w.collect s c work .top turn

def World.turns (turn : Turn) : Option World :=
  match w.stage with
  | .idle => none
  | .runs work .top => some (w.top s c work turn)
  | .runs work .room =>
      let outbox := w.outbox turn
      if outbox.hasRoom s then some ((w.setOutbox outbox).runs work .takes)
      else some (w.collect s c work .room turn)
  | .runs (.drain receipts) .takes =>
      let outbox := w.outbox turn
      if outbox.hasRoom s then (w.setOutbox outbox).takes s (.drain receipts) turn.now
      else some ((w.setOutbox outbox).runs (.drain receipts) .top)
  | .runs work .takes => w.takes s work turn.now
  | .runs work (.listens order) => some (w.collect s c work (.listens order) turn)
  | .drains work taken bytes => some (w.seals c work taken bytes turn)
  | .measures work batch => some (w.measures s work batch)
  | .hands work batch => some (w.hands s work batch turn)
  | .fails work again held error established => w.failsOn s work again held error established turn

def Stage.locks : Stage → Bool
  | .drains _ _ _ => true
  | _ => false

def Stage.isIdle : Stage → Bool
  | .idle => true
  | _ => false

def World.captures (capture : Capture) (waits : Bool) : World :=
  match prepare s c w.sequence capture.item with
  | .error _ => { w with
      sequence := w.sequence + 1
      counters := { w.counters with refused := w.counters.refused + 1 } }
  | .ok (item, size) => { w with
      sequence := w.sequence + 1
      prepared := w.prepared ++ [⟨item, size, capture.critical, waits⟩] }

def World.admits (admission : Admission) (now : ℕ) : World :=
  let prepared := admission.prepared
  match admitItem s w.buffer admission.sealedBytes prepared.item prepared.size prepared.critical now with
  | .error _ => { w with
      admission := none
      counters := { w.counters with refused := w.counters.refused + 1 } }
  | .ok buffer => { w with
      admission := none
      buffer
      counters := { w.counters with captured := w.counters.captured + 1 } }

def step (w : World) : Event → Option World
  | .captures capture waits => some (w.captures s c capture waits)
  | .enters thread =>
      if w.admission.isSome || w.stage.locks then none
      else w.prepared[thread]?.map fun prepared => { w with
        prepared := w.prepared.eraseIdx thread
        admission := some ⟨prepared, w.counters.sealedBytes⟩ }
  | .leaves thread =>
      if w.prepared[thread]?.any fun prepared => !prepared.waits then
        some { w with prepared := w.prepared.eraseIdx thread }
      else none
  | .admits now => w.admission.map fun admission => w.admits s admission now
  | .calls call now => if w.stage.isIdle then some (w.calls s call now) else none
  | .ticks shouldFlush retainedIsDue onTheWire now =>
      match tick shouldFlush retainedIsDue onTheWire with
      | some call => if w.stage.isIdle then some (w.calls s call now) else none
      | none => some w
  | .turns turn => w.turns s c turn
  | .closes =>
      if w.stage.isIdle && w.delivery.outbox.any fun outbox => outbox.pending.isEmpty then
        some { w with delivery := { w.delivery with outbox := none } }
      else some w

def honest (w : World) : Event → Bool
  | .turns turn =>
      match turn.heard with
      | .ok (id, response) =>
          match removed id w.delivery.onTheWire with
          | some (batch, _) =>
              match readReceipt c batch.batchId response with
              | .ok receipt => receipt.accepted + receipt.rejected.length = batch.items
              | .error _ => true
          | none => true
      | .error _ => true
  | _ => true

end

end TallyOwl.Driver
