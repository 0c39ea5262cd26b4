import TallyOwl.Head.Bounded
import TallyOwl.Head.Calendar
import TallyOwl.Head.Document
import TallyOwl.Lib.Checked

/-! Funnels and retention (`analysis.rs`). A prepared expression is the test it puts to a row, and what the clock says is
what it says each time a loop reads it. -/
namespace TallyOwl.Analysis
open Lib Identify
open Query (QueryError invalidArgument)

structure Guards where
  maxSteps : Nat
  maxPeriods : Nat
  maxCorrelationKeys : Nat
  allowedMs : Int
  /-- Whether the deadline has passed where a loop comes to a row, and to a key. -/
  lateAtRow : Nat → Bool
  lateAtKey : Nat → Bool

/-- A clock read costs more than a row does, so a loop reads it this often. -/
def rowsBetweenChecks : Nat := 4096

def Guards.checkTime (guards : Guards) (late : Nat → Bool) (index : Nat) : Except QueryError Unit :=
  if index % rowsBetweenChecks = 0 ∧ late index then
    .error ⟨.budgetExceeded, s!"This query ran for longer than the {guards.allowedMs} milliseconds it was allowed."⟩
  else .ok ()

def overBudget (budget observed : String) (limit : Nat) : QueryError :=
  ⟨.budgetExceeded, s!"This analysis needs {observed} {budget} and the limit is {limit}. Narrow it, or raise the limit if this installation can carry the wider question."⟩

structure Coverage where
  incomplete : Bool
  keys : Nat
  rowsWithoutIdentity : Nat
  deriving DecidableEq

/-! What each key did. -/

structure Correlated where
  byKey : OrderedMap String (List EventRow)
  rowsWithoutIdentity : Nat

def Correlated.take (held : Correlated) (row : EventRow) : Option String → Correlated
  | none => { held with rowsWithoutIdentity := held.rowsWithoutIdentity + 1 }
  | some key => { held with byKey := held.byKey.push key row }

section
variable (guards : Guards) (budget : String) (keyOf : EventRow → Option String)

def correlate : Nat → Correlated → List EventRow → Except QueryError Correlated
  | _, held, [] => .ok held
  | index, held, row :: rest => do
      guards.checkTime guards.lateAtRow index
      match keyOf row with
      | none => correlate (index + 1) (held.take row none) rest
      | some key =>
          if held.byKey.get? key = none ∧ guards.maxCorrelationKeys ≤ held.byKey.entries.length then
            .error (overBudget budget s!"more than {guards.maxCorrelationKeys}" guards.maxCorrelationKeys)
          else correlate (index + 1) (held.take row (some key)) rest

end

def inTimeOrder (rows : List EventRow) : List EventRow :=
  rows.insertionSort fun a b => toLex (a.occurredAt, a.eventId) ≤ toLex (b.occurredAt, b.eventId)

/-! Funnels. -/

structure Step where
  name : String
  keeps : EventRow → Bool
  exclusion : Bool

def named (name : String) : Step := ⟨name, fun row => row.name == name, false⟩

structure FunnelQuestion where
  basis : Basis
  resolution : Resolution
  windowMs : Int
  ordered : Bool
  breakdown : Option String

structure StepResult where
  name : String
  reached : Nat
  conversionTimesMs : List Int
  deriving DecidableEq

structure FunnelResult where
  steps : List StepResult
  byDimension : OrderedMap String (List StepResult)
  coverage : Coverage

structure Walked where
  reached : List (Option Int)
  enteredAtIndex : Nat

section
variable (inside : EventRow → Bool)

/-- Take the earliest row behind the last one taken that matches, step by step. -/
def walkOn : List EventRow → List Step → List (Option Int)
  | _, [] => []
  | rows, step :: steps =>
      match rows.dropWhile fun row => !(inside row && step.keeps row) with
      | [] => none :: steps.map fun _ => none
      | row :: later => some row.occurredAt :: walkOn later steps

def walkAnyOrder (rows : List EventRow) : List Step → List (Option Int)
  | [] => []
  | step :: steps =>
      match (((rows.filter inside).filter step.keeps).map EventRow.occurredAt).min? with
      | some moment => some moment :: walkAnyOrder rows steps
      | none => none :: steps.map fun _ => none

end

def FunnelQuestion.closesAt (question : FunnelQuestion) (openedAt : Int) : Int :=
  Calendar.saturate (openedAt + question.windowMs)

def insideWindow (openedAt closesAt : Int) (row : EventRow) : Bool :=
  decide (openedAt ≤ row.occurredAt ∧ row.occurredAt < closesAt)

def walk (rows : List EventRow) (steps exclusions : List Step) (question : FunnelQuestion) : Option Walked := do
  let first ← steps.head?
  let enteredAtIndex ← rows.findIdx? fun row =>
    if question.ordered then first.keeps row else steps.any fun step => step.keeps row
  let openedAt ← (rows[enteredAtIndex]?).map EventRow.occurredAt
  let inside := insideWindow openedAt (question.closesAt openedAt)
  -- an exclusion voids a sequence when it occurs inside the window
  guard (!exclusions.any fun excluded => rows.any fun row => inside row && excluded.keeps row)
  if question.ordered then
    return ⟨some openedAt :: walkOn inside (rows.drop (enteredAtIndex + 1)) steps.tail, enteredAtIndex⟩
  else
    let reached := walkAnyOrder inside rows steps
    guard reached.head?.join.isSome
    return ⟨reached, enteredAtIndex⟩

/-- Count a key for each later step it reached, up to the first it did not. -/
def creditLater (started : Int) : List (Option Int) → List StepResult → List StepResult
  | some moment :: reached, step :: steps =>
      { step with
        reached := step.reached + 1
        conversionTimesMs := step.conversionTimesMs ++ [moment - started] } :: creditLater started reached steps
  | _, steps => steps

def credit : List (Option Int) → List StepResult → List StepResult
  | some started :: reached, step :: steps =>
      { step with reached := step.reached + 1 } :: creditLater started reached steps
  | _, steps => steps

structure Accounts where
  totals : List StepResult
  byDimension : OrderedMap String (List StepResult)

def blank (real : List Step) : List StepResult := real.map fun step => ⟨step.name, 0, []⟩

section
variable (floatText : UInt64 → String) (guards : Guards)

def propertyText (row : EventRow) (key : String) : Option String :=
  ((row.property key).map (·.toDisplay floatText)).filter (· ≠ "")

/-- Account for one key. The breakdown value is taken from the row that entered the funnel. -/
def accountKey (real exclusions : List Step) (question : FunnelQuestion) (accounts : Accounts) (owned : List EventRow) :
    Accounts :=
  match walk owned real exclusions question with
  | none => accounts
  | some walked =>
      { totals := credit walked.reached accounts.totals
        byDimension := match question.breakdown with
          | none => accounts.byDimension
          | some name =>
              let bucket := ((owned[walked.enteredAtIndex]?).bind fun row => propertyText floatText row name).getD "(not set)"
              let held := (accounts.byDimension.get? bucket).getD (blank real)
              accounts.byDimension.insert bucket (credit walked.reached held) }

def accountKeys (real exclusions : List Step) (question : FunnelQuestion) :
    Nat → Accounts → List (List EventRow) → Except QueryError Accounts
  | _, accounts, [] => .ok accounts
  | index, accounts, owned :: rest => do
      guards.checkTime guards.lateAtKey index
      accountKeys real exclusions question (index + 1)
        (accountKey floatText real exclusions question accounts (inTimeOrder owned)) rest

def Basis.counted : Basis → String
  | .endUser => "end users"
  | .session => "sessions"
  | .group => "groups"

def checkFunnel (steps : List Step) (question : FunnelQuestion) : Except QueryError Unit :=
  if steps = [] then
    .error (invalidArgument "A funnel needs at least one step. Name the events a person passes through.")
  else if guards.maxSteps < steps.length then .error (overBudget "steps" (toString steps.length) guards.maxSteps)
  else if steps.all Step.exclusion then
    .error (invalidArgument "Every step of this funnel is an exclusion, so nothing can enter it. Add the step a person starts at.")
  else if question.windowMs ≤ 0 then
    .error (invalidArgument "A funnel needs a window. Without one, two events years apart would count as one sequence.")
  else .ok ()

def funnel (rows : List EventRow) (incomplete : Bool) (identity : Identity) (steps : List Step)
    (question : FunnelQuestion) : Except QueryError FunnelResult := do
  checkFunnel guards steps question
  let correlated ← correlate guards (Basis.counted question.basis)
    (fun row => identity.keyFor row question.basis question.resolution) 0 ⟨∅, 0⟩ rows
  let real := steps.filter fun step => !step.exclusion
  let exclusions := steps.filter fun step => step.exclusion
  let accounts ← accountKeys floatText guards real exclusions question 0 ⟨blank real, ∅⟩ correlated.byKey.values
  return ⟨accounts.totals, accounts.byDimension, incomplete, correlated.byKey.entries.length, correlated.rowsWithoutIdentity⟩

end

/-! Retention. -/

structure RetentionQuestion where
  initial : EventRow → Bool
  returning : EventRow → Bool
  unit : Calendar.CalendarUnit
  zone : Calendar.Zone
  periods : Nat
  /-- Only a key whose initial event is its first one in the whole range enters a cohort. -/
  firstTimeOnly : Bool
  basis : Basis
  resolution : Resolution
  epoch : Int

structure Cohort where
  period : Nat
  startedAt : Int
  size : Nat
  /-- How many returned in each later period, the first being the one they started in. -/
  returned : List Nat
  deriving DecidableEq

structure RetentionResult where
  period : String
  cohorts : List Cohort
  coverage : Coverage

def unitName : Calendar.CalendarUnit → String
  | .hour => "hour"
  | .day => "day"
  | .week => "week"
  | .month => "month"

section
variable (question : RetentionQuestion)

def RetentionQuestion.index (moment : Int) : Option Nat :=
  (question.zone.periodsBetween question.epoch moment question.unit).map fun apart => (max apart 0).toNat

def RetentionQuestion.start (index : Nat) : Option Int := question.zone.advance question.epoch question.unit index

def entered (owned : List EventRow) : Option EventRow := do
  let at' ← owned.findIdx? question.initial
  guard (!question.firstTimeOnly || at' == 0)
  owned[at']?

/-- How far behind its cohort's period a key came back, each time. -/
def offsets (started : EventRow) (period : Nat) (owned : List EventRow) : Option (List Nat) :=
  (owned.filter fun row => decide (started.occurredAt ≤ row.occurredAt) && question.returning row).mapM fun row =>
    (question.index row.occurredAt).map fun index => index - period

def cohortOf (cohorts : OrderedMap Nat Cohort) (period : Nat) : Option Cohort :=
  match cohorts.get? period with
  | some held => some held
  | none => (question.start period).map fun startedAt => ⟨period, startedAt, 0, List.replicate question.periods 0⟩

/-- Put a key in its cohort. A key that returned twice in one period counts once for that period. -/
def joinCohort (cohorts : OrderedMap Nat Cohort) (owned : List EventRow) : Option (OrderedMap Nat Cohort) :=
  match entered question owned with
  | none => some cohorts
  | some started => do
      let period ← question.index started.occurredAt
      let held ← cohortOf question cohorts period
      let offsets ← offsets question started period owned
      let seen := (offsets.filter fun offset => decide (offset < question.periods)).dedup
      return cohorts.insert period { held with
        size := held.size + 1
        returned := seen.foldl (fun returned offset => returned.modify offset (· + 1)) held.returned }

variable (guards : Guards)

def dated {α : Type} : Option α → Checked QueryError α
  | none => Checked.fault .range
  | some a => .ok a

def joinCohorts : Nat → OrderedMap Nat Cohort → List (List EventRow) → Checked QueryError (OrderedMap Nat Cohort)
  | _, cohorts, [] => .ok cohorts
  | index, cohorts, owned :: rest => do
      Checked.lift (guards.checkTime guards.lateAtKey index)
      let cohorts ← dated (joinCohort question cohorts (inTimeOrder owned))
      joinCohorts (index + 1) cohorts rest

def checkRetention : Except QueryError Unit :=
  if question.periods = 0 then .error (invalidArgument "A retention matrix needs at least one period.")
  else if guards.maxPeriods < question.periods then
    .error (overBudget "periods" (toString question.periods) guards.maxPeriods)
  else .ok ()

def retention (rows : List EventRow) (incomplete : Bool) (identity : Identity) : Checked QueryError RetentionResult := do
  Checked.lift (checkRetention question guards)
  let correlated ← Checked.lift (correlate guards "correlation keys"
    (fun row => identity.keyFor row question.basis question.resolution) 0 ⟨∅, 0⟩ rows)
  let cohorts ← joinCohorts question guards 0 ∅ correlated.byKey.values
  return ⟨unitName question.unit, cohorts.values,
    incomplete, correlated.byKey.entries.length, correlated.rowsWithoutIdentity⟩

end

end TallyOwl.Analysis
