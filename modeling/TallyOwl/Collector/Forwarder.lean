import TallyOwl.Collector.Task

/-! The forwarder (`forwarder.rs`) between the durable queue and the head. Any number of forwarders
work on one queue, and a request that a forwarder no longer waits for may still reach the head. The
queue is Corndogs as its client states it: a change names the revision of its claim. -/
namespace TallyOwl.Delivery
open Lib Wire
open Resolver (TallyOwlError)

def claimTimeoutSeconds : Int := 30
def backoffTable : List Int := [1, 2, 5, 10, 30, 60]
def breakerFirstMs : ℕ := 1000
def breakerLongestMs : ℕ := 30000

def backoffSeconds (attempts spread : ℕ) : Int :=
  let base := backoffTable.getD (min attempts (backoffTable.length - 1)) 60
  base + if 3 < base then (spread : Int) % (base / 4 + 1) else 0

/-- What paces the delivery loop while the destination is failing. -/
structure Breaker where
  failures : ℕ
  openUntilMs : Int

namespace Breaker

def new : Breaker := ⟨0, 0⟩

def isTripped (b : Breaker) : Bool := 0 < b.failures

def waitMs (b : Breaker) (now : Int) : Int := max (b.openUntilMs - now) 0

def onFailure (b : Breaker) (now : Int) (spread : ℕ) : Breaker :=
  let doubled := min (breakerFirstMs * 2 ^ min b.failures 16) breakerLongestMs
  ⟨b.failures + 1, now + ((doubled + spread % (doubled / 4 + 1) : ℕ) : Int)⟩

end Breaker

inductive TaskState where
  | queued | sending | backoff | quarantined | completed
  deriving DecidableEq

structure Task (π : Type) where
  payload : π
  state : TaskState
  deadline : Int
  revision : ℕ

structure ClaimedTask (π : Type) where
  uuid : ℕ
  payload : π
  revision : ℕ

/-- How a change of a task ends: it is applied and the queue says so, it is applied and its reply is
lost, or it is not applied. -/
inductive Outcome where
  | told | lost | failed
  deriving DecidableEq

section
variable {π : Type}

def claimable (task : Task π) : Bool := task.state = .queued

def claimed (task : Task π) (now : Int) : Task π :=
  { task with state := .sending, deadline := now + claimTimeoutSeconds * 1000, revision := task.revision + 1 }

def holds (task : Task π) (claim : ClaimedTask π) : Bool :=
  task.state = .sending && task.revision = claim.revision

/-- A change by the worker of a claim, and whether it is told that the change was made. -/
def change (tasks : List (Task π)) (claim : ClaimedTask π) (outcome : Outcome) (f : Task π → Task π) :
    List (Task π) × Bool :=
  match tasks[claim.uuid]? with
  | some task =>
      if holds task claim = true ∧ outcome ≠ .failed then
        (tasks.set claim.uuid { f task with revision := task.revision + 1 }, outcome = .told)
      else (tasks, false)
  | none => (tasks, false)

def Task.complete (task : Task π) : Task π := { task with state := .completed }

def Task.park (now delaySeconds : Int) (payload : Option π) (task : Task π) : Task π :=
  { task with
    state := .backoff
    deadline := now + max delaySeconds 1 * 1000
    payload := payload.getD task.payload }

def Task.quarantine (task : Task π) : Task π := { task with state := .quarantined }

def Task.sweep (now : Int) (task : Task π) : Task π :=
  if (task.state = .sending ∨ task.state = .backoff) ∧ task.deadline ≤ now then
    { task with state := .queued, revision := task.revision + 1 }
  else task

end

structure CommitBatchRequest where
  batch : Batch
  sourceId : Bytes
  attempt : Option ℕ
  protocolVersion : Option ℕ

def protocolVersion : ℕ := 1

abbrev Key := Bytes × Bytes

def CommitBatchRequest.key (request : CommitBatchRequest) : Key := (request.sourceId, request.batch.batchId)

structure CommitReceipt where
  deduplicated : Bool

abbrev Answer := Except TallyOwlError CommitReceipt

/-- A request that was sent, and the head's answer once it has one. -/
structure Flight where
  request : CommitBatchRequest
  answer : Option Answer

inductive Step where
  | finished | destinationFailed

inductive Stage (π β : Type) where
  | idle
  | holds (claim : ClaimedTask π) (probing : Bool)
  | waits (claim : ClaimedTask π) (probing : Bool) (delivery : DeliveryTask β) (flight : ℕ)
  | completes (claim : ClaimedTask π)
  | parks (claim : ClaimedTask π) (delaySeconds : Int) (payload : Option π)
  | quarantines (claim : ClaimedTask π) (found : Step)

structure Worker (π β : Type) where
  breaker : Breaker
  stage : Stage π β

def Worker.new {π β : Type} : Worker π β := ⟨.new, .idle⟩

def Worker.ends {π β : Type} (worker : Worker π β) (found : Step) (now : Int) (spread : ℕ) : Worker π β :=
  match found with
  | .finished => ⟨.new, .idle⟩
  | .destinationFailed => ⟨worker.breaker.onFailure now spread, .idle⟩

structure Forwarder (π β : Type) where
  codec : Codec π β
  maxPayloadBytes : ℕ
  maxDeliveryAgeMs : ℕ

/-- The accepted batches are those of the tasks, in order. The head has what it remembers; every
commit it made is there for the statement. -/
structure World (π β : Type) where
  now : Int
  accepted : List (Batch × Bytes)
  tasks : List (Task π)
  workers : List (Worker π β)
  flights : List Flight
  memory : List (Key × Int)
  commits : List (Key × Int)

def World.new {π β : Type} : World π β := ⟨0, [], [], [], [], [], []⟩

inductive Verdict where
  | takes
  | refuses (e : TallyOwlError)

inductive Act where
  | restarts
  | claims (uuid : ℕ) (told : Bool) (spread : ℕ)
  | claimFails (spread : ℕ)
  | sends
  | hears (spread : ℕ)
  /-- The call fails, and the request may have reached the head or still reach it. -/
  | loses (e : TallyOwlError) (spread : ℕ)
  | completes (outcome : Outcome) (spread : ℕ)
  | parks (outcome : Outcome) (spread : ℕ)
  | quarantines (outcome : Outcome) (spread : ℕ)

inductive Event where
  | passes (ms : ℕ)
  | accepts (batch : Batch) (sourceId : Bytes)
  | starts
  | acts (worker : ℕ) (act : Act)
  | arrives (flight : ℕ) (verdict : Verdict)
  | sweeps
  | forgets (key : Key)

section
variable {π β : Type} (f : Forwarder π β)

def heard (claim : ClaimedTask π) (probing : Bool) (delivery : DeliveryTask β) (now : Int) (spread : ℕ) :
    Answer → Stage π β
  | .ok _ => .completes claim
  | .error e =>
      if e.retryable then
        let age := now - delivery.acceptedAt
        if (f.maxDeliveryAgeMs : Int) < age then .quarantines claim .destinationFailed
        else
          let delay := backoffSeconds delivery.attempts spread
          let payload := if probing then none
            else some (f.codec.encodeDeliveryTask (noteAttempt delivery now (delay * 1000) e.message))
          .parks claim delay payload
      else .quarantines claim .finished

/-- The claimed batch goes out, or is set aside because no retry makes it readable. -/
def sends (w : World π β) (claim : ClaimedTask π) (probing : Bool) : Stage π β × List Flight :=
  match decode f.codec claim.payload with
  | .error _ => (.quarantines claim .finished, [])
  | .ok delivery =>
      match opened f.codec delivery f.maxPayloadBytes with
      | .error _ => (.quarantines claim .finished, [])
      | .ok batch =>
          (.waits claim probing delivery w.flights.length,
            [⟨⟨batch, delivery.sourceId, some delivery.attempts, some protocolVersion⟩, none⟩])

namespace World

def works (w : World π β) (i : ℕ) (worker : Worker π β) (stage : Stage π β) : World π β :=
  { w with workers := w.workers.set i { worker with stage } }

def ends (w : World π β) (i : ℕ) (worker : Worker π β) (found : Step) (spread : ℕ) : World π β :=
  { w with workers := w.workers.set i (worker.ends found w.now spread) }

def commit (w : World π β) (key : Key) : World π β × CommitReceipt :=
  if w.memory.any fun entry => entry.1 = key then (w, ⟨true⟩)
  else ({ w with memory := (key, w.now) :: w.memory, commits := (key, w.now) :: w.commits }, ⟨false⟩)

/-- A change of a worker's task, and what the turn found by whether it was told of it. -/
def changes (w : World π β) (i : ℕ) (worker : Worker π β) (claim : ClaimedTask π) (outcome : Outcome)
    (g : Task π → Task π) (done failed : Step) (spread : ℕ) : World π β :=
  let (tasks, told) := change w.tasks claim outcome g
  { w with tasks }.ends i worker (if told then done else failed) spread

def acts (w : World π β) (i : ℕ) (worker : Worker π β) : Act → Option (World π β)
  | .restarts => some { w with workers := w.workers.set i .new }
  | .claims uuid told spread =>
      match worker.stage, w.tasks[uuid]? with
      | .idle, some task =>
          if worker.breaker.waitMs w.now = 0 ∧ claimable task = true then
            let taken := { w with tasks := w.tasks.set uuid (claimed task w.now) }
            let claim : ClaimedTask π := ⟨uuid, task.payload, task.revision + 1⟩
            some (if told then taken.works i worker (.holds claim worker.breaker.isTripped)
              else taken.ends i worker .destinationFailed spread)
          else none
      | _, _ => none
  | .claimFails spread =>
      match worker.stage with
      | .idle =>
          if worker.breaker.waitMs w.now = 0 then some (w.ends i worker .destinationFailed spread) else none
      | _ => none
  | .sends =>
      match worker.stage with
      | .holds claim probing =>
          let (stage, flights) := Delivery.sends f w claim probing
          some ({ w with flights := w.flights ++ flights }.works i worker stage)
      | _ => none
  | .hears spread =>
      match worker.stage with
      | .waits claim probing delivery flight =>
          (w.flights[flight]?.bind Flight.answer).map fun answer =>
            w.works i worker (heard f claim probing delivery w.now spread answer)
      | _ => none
  | .loses e spread =>
      match worker.stage with
      | .waits claim probing delivery _ =>
          some (w.works i worker (heard f claim probing delivery w.now spread (.error e)))
      | _ => none
  | .completes outcome spread =>
      match worker.stage with
      | .completes claim =>
          some (w.changes i worker claim outcome Task.complete .finished .destinationFailed spread)
      | _ => none
  | .parks outcome spread =>
      match worker.stage with
      | .parks claim delaySeconds payload => some (w.changes i worker claim outcome
          (Task.park w.now delaySeconds payload) .destinationFailed .destinationFailed spread)
      | _ => none
  | .quarantines outcome spread =>
      match worker.stage with
      | .quarantines claim found =>
          some (w.changes i worker claim outcome Task.quarantine found found spread)
      | _ => none

def step (w : World π β) : Event → Option (World π β)
  | .passes ms => some { w with now := w.now + ms }
  | .accepts batch sourceId => some { w with
      accepted := w.accepted ++ [(batch, sourceId)]
      tasks := w.tasks ++ [⟨f.codec.encodeDeliveryTask (sealed f.codec batch sourceId w.now), .queued, 0, 0⟩] }
  | .starts => some { w with workers := w.workers ++ [.new] }
  | .arrives n verdict =>
      match w.flights[n]? with
      | some ⟨request, none⟩ =>
          match verdict with
          | .takes =>
              let (taken, receipt) := w.commit request.key
              some { taken with flights := w.flights.set n ⟨request, some (.ok receipt)⟩ }
          | .refuses e => some { w with flights := w.flights.set n ⟨request, some (.error e)⟩ }
      | _ => none
  | .sweeps => some { w with tasks := w.tasks.map (Task.sweep w.now) }
  | .forgets key =>
      if w.memory.any fun entry => entry.1 = key && entry.2 + (f.maxDeliveryAgeMs : Int) < w.now then
        some { w with memory := w.memory.filter fun entry => entry.1 ≠ key }
      else none
  | .acts i act => w.workers[i]?.bind fun worker => w.acts f i worker act

end World

end

end TallyOwl.Delivery
