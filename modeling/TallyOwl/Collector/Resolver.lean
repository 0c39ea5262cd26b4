import TallyOwl.Collector.Intake
import TallyOwl.Lib.Runs

/-! Whose credential it is (`TenancyResolver` of `tenancy.rs`). Any number of calls are under way, each
at its own stage, and a step takes one lock of one call. The keyed hash behind a pause is a parameter,
and so is what the head answers. -/
namespace TallyOwl.Resolver
open Lib Wire
open Collector (ErrorCode Tenancy)

structure TallyOwlError where
  code : ErrorCode
  message : String
  retryable : Bool
  deriving DecidableEq

def unauthenticated (message : String) : TallyOwlError := ⟨.unauthenticated, message, false⟩

def unavailable (message : String) : TallyOwlError := ⟨.unavailable, message, true⟩

structure ResolveKeyResponse where
  workspaceId : Bytes
  projectId : Bytes
  sourceId : Bytes
  cacheTtlMs : Int
  expiresAt : Option Int
  deriving DecidableEq

abbrev Answer := Except TallyOwlError ResolveKeyResponse

def fallbackTtlMs : Int := 30000
def refusalMemoryMs : Int := 5000
def maxCredentialBytes : ℕ := 256
def maxRefused : ℕ := 10000
def knownSweepAt : ℕ := 4096
def headPauseMinMs : Int := 1000
def headPauseMaxMs : Int := 5000

structure Held where
  tenancy : Tenancy
  freshUntil : Int
  expiresAt : Option Int
  deriving DecidableEq

structure Refused where
  message : String
  keptUntil : Int
  deriving DecidableEq

/-- The grace is a length of time of the configuration, which is never negative. -/
structure TenancyResolver where
  graceMs : ℕ
  hash : Int → ℕ → ℕ

def toTenancy (answer : ResolveKeyResponse) : Except TallyOwlError Tenancy := do
  let read (bytes : Bytes) (what : String) : Except TallyOwlError Id :=
    if bytes.length = 16 then .ok (Id.ofBytes bytes)
    else .error ⟨.internal, s!"The head answered with a {what} that is not 16 bytes.", true⟩
  let workspaceId ← read answer.workspaceId "workspace"
  let projectId ← read answer.projectId "project"
  let sourceId ← read answer.sourceId "source"
  return ⟨workspaceId, projectId, sourceId⟩

def live (expiresAt : Option Int) (now : Int) : Bool := expiresAt.all fun moment => now < moment

def period (answer : ResolveKeyResponse) : Int :=
  if 0 < answer.cacheTtlMs then answer.cacheTtlMs else fallbackTtlMs

def TallyOwlError.refuses (e : TallyOwlError) : Bool := e.code = .unauthenticated || !e.retryable

def unread (credential : String) : Option TallyOwlError :=
  if isBlank credential then
    some (unauthenticated "This connection sent no credential. Configure `collector.apiKey` for the application that sends this data.")
  else if maxCredentialBytes < credential.utf8ByteSize then
    some (unauthenticated s!"This credential is {credential.utf8ByteSize} bytes and a TallyOwl key is at most {maxCredentialBytes}. Check `collector.apiKey` for the application that sends this data.")
  else none

section
variable (r : TenancyResolver)

def throughAnOutage (held : Option Held) (now : Int) (cause : String) : Except TallyOwlError Tenancy :=
  match held with
  | some held =>
      if now < held.freshUntil + r.graceMs ∧ live held.expiresAt now = true then .ok held.tenancy
      else .error (refusal cause)
  | none => .error (refusal cause)
where
  refusal (cause : String) : TallyOwlError :=
    unavailable s!"We cannot check this application's key right now, so this batch was not accepted. Send it again. {cause}"

/-- A held answer into the memory, with a sweep of what can never be served again where it is full. -/
def hold (known : OrderedMap String Held) (credential : String) (held : Held) (now : Int) :
    OrderedMap String Held :=
  let swept := if knownSweepAt ≤ known.entries.length then
    known.filter fun _ held => now < held.freshUntil + r.graceMs && live held.expiresAt now else known
  swept.insert credential held

def headPauseMs (now : Int) (lookups : ℕ) : Int :=
  headPauseMinMs + (r.hash now lookups : Int) % (headPauseMaxMs - headPauseMinMs + 1)

end

/-- Remember one refusal, inside the bound. The second part is until when unknown credentials are
refused here, where it changes. -/
def rememberRefusal (refused : OrderedMap String Refused) (credential message : String) (now : Int) :
    OrderedMap String Refused × Option Int :=
  let full (refused : OrderedMap String Refused) : Bool :=
    maxRefused ≤ refused.entries.length && (refused.get? credential).isNone
  let refused := if full refused then refused.filter fun _ entry => now < entry.keptUntil else refused
  if full refused then (refused, some (now + refusalMemoryMs))
  else (refused.insert credential ⟨message, now + refusalMemoryMs⟩, none)

/-- What a call holds of the flight for its credential: a place in the queue, the turn, the reference
alone, and a reference that the map no longer counts on. -/
inductive Spot where
  | alone
  | waits (flight : ℕ)
  | flies (flight : ℕ)
  | landed (flight : ℕ)
  | gone (flight : ℕ)
  deriving DecidableEq

def Spot.flight : Spot → Option ℕ
  | .alone => none
  | .waits f | .flies f | .landed f | .gone f => some f

inductive Stage where
  | known
  | refused (held : Option Held)
  | outage (held : Option Held)
  | flood (held : Option Held)
  | joins
  | waits
  | asks
  | calls
  | replied (place : ℕ) (answer : Answer)
  | takes (place : ℕ) (answer : Answer)
  | forgives (tenancy : Tenancy)
  | remembers (e : TallyOwlError)
  | unlocks (answer : Except TallyOwlError Tenancy)
  | leaves (answer : Except TallyOwlError Tenancy)
  | drops (answer : Except TallyOwlError Tenancy)
  | returned (answer : Except TallyOwlError Tenancy)

/-- One call of `resolve_at`, with the answers that were taken in before it began. -/
structure Call where
  credential : String
  now : Int
  before : List ℕ
  spot : Spot
  stage : Stage

/-- What the head answered, and the time of the call that asked. -/
structure Reply where
  credential : String
  askedAt : Int
  answer : Answer

def Reply.refused (reply : Reply) : Bool :=
  match reply.answer with
  | .error e => e.refuses
  | .ok _ => false

/-- The replies in their order and the places of those that are taken in are there for the statement,
and no step reads them. -/
structure State where
  known : OrderedMap String Held
  refused : OrderedMap String Refused
  headUnreachableUntil : Int
  unknownRefusedUntil : Int
  lookups : ℕ
  flights : OrderedMap String ℕ
  flightsMade : ℕ
  calls : List Call
  replies : List Reply
  takenIn : List ℕ

def State.new : State := ⟨∅, ∅, 0, 0, 0, ∅, 0, [], [], []⟩

inductive Event where
  | begins (credential : String) (now : Int)
  | moves (call : ℕ)
  | answers (call : ℕ) (answer : Answer)

namespace State

def goes (s : State) (i : ℕ) (d : Call) (stage : Stage) : State :=
  { s with calls := s.calls.set i { d with stage } }

def moved (s : State) (i : ℕ) (d : Call) (spot : Spot) (stage : Stage) : State :=
  { s with calls := s.calls.set i { d with spot, stage } }

/-- The memory answers a call: at once, or under the turn of its flight. -/
def settles (s : State) (i : ℕ) (d : Call) (answer : Except TallyOwlError Tenancy) : State :=
  s.goes i d (if d.spot = .alone then .returned answer else .unlocks answer)

def strongCount (s : State) (flight : ℕ) : ℕ :=
  s.flights.values.count flight + s.calls.countP fun d => d.spot.flight = some flight

def takes (r : TenancyResolver) (s : State) (i : ℕ) (d : Call) : Answer → State
  | .ok answer =>
      match toTenancy answer with
      | .error e => s.goes i d (.unlocks (.error e))
      | .ok tenancy =>
          if live answer.expiresAt d.now then
            let held : Held := ⟨tenancy, d.now + period answer, answer.expiresAt⟩
            { s with known := hold r s.known d.credential held d.now }.goes i d (.forgives tenancy)
          else
            { s with known := s.known.erase d.credential }.goes i d (.unlocks (.error (unauthenticated
              "This credential is not valid. Ask the person who runs TallyOwl for a new one.")))
  | .error e =>
      if e.refuses then { s with known := s.known.erase d.credential }.goes i d (.remembers e)
      else s.goes i d (.unlocks (throughAnOutage r (s.known.get? d.credential) d.now e.message))

def moves (r : TenancyResolver) (s : State) (i : ℕ) (d : Call) : Option State :=
  match d.stage with
  | .known =>
      match s.known.get? d.credential with
      | some held =>
          if d.now < held.freshUntil ∧ live held.expiresAt d.now = true then
            some (s.settles i d (.ok held.tenancy))
          else some (s.goes i d (.refused (some held)))
      | none => some (s.goes i d (.refused none))
  | .refused held =>
      match s.refused.get? d.credential with
      | some entry =>
          if d.now < entry.keptUntil then some (s.settles i d (.error (unauthenticated entry.message)))
          else some (s.goes i d (.outage held))
      | none => some (s.goes i d (.outage held))
  | .outage held =>
      if d.now < s.headUnreachableUntil then
        some (s.settles i d (throughAnOutage r held d.now "The head did not answer a moment ago."))
      else some (s.goes i d (.flood held))
  | .flood held =>
      if held.isNone ∧ d.now < s.unknownRefusedUntil then
        some (s.settles i d (.error (unavailable "This collector is receiving too many credentials it does not know, so it is not checking new ones for a few seconds. Send this batch again.")))
      else some (s.goes i d (if d.spot = .alone then .joins else .asks))
  | .joins =>
      match s.flights.get? d.credential with
      | some flight => some (s.moved i d (.waits flight) .waits)
      | none => some ({ s with
          flights := s.flights.insert d.credential s.flightsMade
          flightsMade := s.flightsMade + 1 }.moved i d (.waits s.flightsMade) .waits)
  | .waits =>
      match d.spot with
      | .waits flight =>
          if ∀ e ∈ s.calls, e.spot ≠ .flies flight then some (s.moved i d (.flies flight) .known) else none
      | _ => none
  | .asks => some ({ s with lookups := s.lookups + 1 }.goes i d .calls)
  | .calls => none
  | .replied place answer =>
      let unreachable := match answer with
        | .ok _ => 0
        | .error e => if e.refuses then 0 else d.now + headPauseMs r d.now s.lookups
      some ({ s with headUnreachableUntil := unreachable }.goes i d (.takes place answer))
  | .takes place answer => some ({ s with takenIn := place :: s.takenIn }.takes r i d answer)
  | .forgives tenancy => some ({ s with refused := s.refused.erase d.credential }.goes i d (.unlocks (.ok tenancy)))
  | .remembers e =>
      let (refused, unknown) := rememberRefusal s.refused d.credential e.message d.now
      some ({ s with
        refused
        unknownRefusedUntil := unknown.getD s.unknownRefusedUntil }.goes i d
          (.unlocks (.error { e with retryable := false })))
  | .unlocks answer =>
      match d.spot with
      | .flies flight => some (s.moved i d (.landed flight) (.leaves answer))
      | _ => none
  | .leaves answer =>
      match d.spot with
      | .landed flight => some ({ s with
          flights := if s.strongCount flight ≤ 2 then s.flights.erase d.credential else s.flights
          }.moved i d (.gone flight) (.drops answer))
      | _ => none
  | .drops answer => some (s.moved i d .alone (.returned answer))
  | .returned _ => none

def step (r : TenancyResolver) (s : State) : Event → Option State
  | .begins credential now =>
      let stage : Stage := match unread credential with
        | some e => .returned (.error e)
        | none => .known
      some { s with calls := s.calls ++ [⟨credential, now, s.takenIn, .alone, stage⟩] }
  | .moves i => s.calls[i]?.bind (s.moves r i)
  | .answers i answer =>
      match s.calls[i]? with
      | some d =>
          match d.stage with
          | .calls =>
              let reply : Reply := ⟨d.credential, d.now, answer⟩
              some ({ s with replies := s.replies ++ [reply] }.goes i d (.replied s.replies.length answer))
          | _ => none
      | none => none

end State

end TallyOwl.Resolver
