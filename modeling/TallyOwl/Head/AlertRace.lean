import TallyOwl.Head.AlertRun
import TallyOwl.Head.Tenancy

/-! One rule while it is evaluated and operators write it (`alerts.rs`). An evaluation works on a copy of the rule and of
its instance, and writes both back whole. -/
namespace TallyOwl.Alerts.Racing
open Lib
open Collector (TallyOwlError invalidArgument)
open Query (QueryError projectsNamed)

structure Service where
  callbacksAvailable : Bool
  codec : Query.Codec
  partialCmp : UInt64 → UInt64 → Option Ordering

def toId (bytes : Bytes) : Except TallyOwlError Id :=
  if bytes.length = 16 then .ok (Id.ofBytes bytes)
  else .error (invalidArgument "An identifier must be exactly sixteen bytes.")

/-- The walk over a query refuses what is malformed, or nested too deep. -/
def ofQuery (e : QueryError) : TallyOwlError :=
  ⟨if e.code = .budgetExceeded then .budgetExceeded else .invalidArgument, e.message⟩

def readsOnlyItsProject (codec : Query.Codec) (rule : AlertRule) (projectId : Id) : Except TallyOwlError Unit := do
  let named ← (projectsNamed codec rule.query).mapError ofQuery
  if named.any (· != projectId) then
    .error ⟨.permissionDenied, "This alert rule belongs to one project and its query reads another. An alert reads only the project it belongs to. Change the project in the query, or store the rule in that project."⟩

/-- What `put_rule` stores. -/
def Service.putRule (service : Service) (rule : AlertRule) (who : String) (now : Int) : Except TallyOwlError AlertRule := do
  checkRule service.callbacksAvailable rule
  let projectId ← toId rule.projectId
  readsOnlyItsProject service.codec rule projectId
  .ok { rule with updatedAt := some now, updatedBy := some who }

def budgetFailuresBeforeDisabling : Nat := 3

def disabledBy (rule : AlertRule) (failures : Nat) : AlertRule :=
  { rule with
    enabled := false
    disabledReason := some s!"This rule ran out of its evaluation budget {failures} times in a row and TallyOwl stopped running it. Narrow its range or its query, then enable it again." }

inductive Change where
  | silence (till : Int) (reason : String)
  | resolve (reason : String)

def Change.rule (rule : AlertRule) : Change → AlertRule
  | .silence till reason =>
      { rule with silencedUntil := some till, silenceReason := if reason = "" then none else some reason }
  | .resolve _ => { rule with silencedUntil := none, silenceReason := none }

def Change.held (held : AlertInstance) (now : Int) : Change → AlertInstance
  | .silence _ reason => { held with state := stateName .silenced, reason, since := now }
  | .resolve reason => { held with state := stateName .ok, reason, since := now, notificationsSent := 0 }

/-- How far a call is, with what it has copied: an `evaluate_and_record`, or a `silence` or `resolve`. -/
inductive Call where
  | evaluates (rule : AlertRule)
  | judges (rule : AlertRule) (held : Option AlertInstance)
  | disables (rule : AlertRule) (failures : Nat)
  | changes (change : Change) (rule : AlertRule)
  | changed (change : Change) (rule : AlertRule)
  | settles (change : Change) (rule : AlertRule) (held : Option AlertInstance)
  | done

/-- What is stored of the rule, the calls that run, and what the operators wrote last. -/
structure State where
  rule : Option AlertRule
  held : Option AlertInstance
  calls : List Call
  wrote : Option AlertRule

inductive Event where
  | put (rule : AlertRule) (who : String) (now : Int)
  | remove
  | evaluate
  | change (change : Change)
  | next (i : Nat) (e : Evaluation) (now : Int)

def start : State := ⟨none, none, [], none⟩

def State.moves (s : State) (i : Nat) (call : Call) : State := { s with calls := s.calls.set i call }

def goOn (service : Service) (projectId : Id) (s : State) (i : Nat) (e : Evaluation) (now : Int) : Call → Option State
  | .evaluates rule => some (s.moves i (.judges rule s.held))
  | .judges rule held =>
      let d := rule.decide service.partialCmp held e now projectId
      let failures := d.newInstance.budgetFailures
      let stage : Call :=
        if budgetFailuresBeforeDisabling ≤ failures ∧ rule.enabled ∧ rule.disabledReason = none then .disables rule failures
        else .done
      some { s.moves i stage with held := some d.newInstance }
  | .disables rule failures =>
      match service.putRule (disabledBy rule failures) "tallyowl" now with
      | .ok stored => some { s.moves i .done with rule := some stored }
      | .error _ => some (s.moves i .done)
  | .changes change rule =>
      match service.putRule (change.rule rule) "operator" now with
      | .ok stored => some { s.moves i (.changed change stored) with rule := some stored, wrote := some stored }
      | .error _ => some (s.moves i .done)
  | .changed change rule => some (s.moves i (.settles change rule s.held))
  | .settles change rule held =>
      some { s.moves i .done with held := some (change.held (held.getD (newInstance rule.ruleId projectId)) now) }
  | .done => none

def step (service : Service) (projectId : Id) (s : State) : Event → Option State
  | .put rule who now =>
      match service.putRule rule who now with
      | .ok stored => some { s with rule := some stored, wrote := some stored }
      | .error _ => none
  | .remove => some { s with rule := none, held := none, wrote := none }
  | .evaluate => s.rule.map fun rule => { s with calls := s.calls ++ [.evaluates rule] }
  | .change change => s.rule.map fun rule => { s with calls := s.calls ++ [.changes change rule] }
  | .next i e now => (s.calls[i]?).bind (goOn service projectId s i e now)

/-- The rule without what an evaluation may write: that it is disabled and why, and the stamp. -/
def untold (rule : AlertRule) : AlertRule :=
  { rule with enabled := false, disabledReason := none, updatedAt := none, updatedBy := none }

/-- The stored rule is what the operators wrote last, and what they removed is gone with its instance. -/
def Kept (s : State) : Prop :=
  s.rule.map untold = s.wrote.map untold ∧ (s.wrote = none → s.held = none)

instance (s : State) : Decidable (Kept s) := inferInstanceAs (Decidable (_ ∧ _))

def Call.InTime (s : State) : Call → Prop
  | .disables rule _ => s.wrote.map untold = some (untold rule)
  | .judges .. | .changes .. | .settles .. => s.wrote.isSome
  | _ => True

instance (s : State) : (call : Call) → Decidable (call.InTime s)
  | .disables .. => inferInstanceAs (Decidable (_ = _))
  | .judges .. | .changes .. | .settles .. => inferInstanceAs (Decidable (_ = true))
  | .evaluates _ | .changed .. | .done => .isTrue trivial

/-- A call writes only where the rule is not removed, and disables it only where the operators' last write says what its
copy says. -/
def InTime (s : State) : Event → Prop
  | .next i _ _ => ∀ call ∈ s.calls[i]?, call.InTime s
  | _ => True

instance (s : State) : (e : Event) → Decidable (InTime s e)
  | .next i _ _ => inferInstanceAs (Decidable (∀ call ∈ s.calls[i]?, call.InTime s))
  | .put .. | .remove | .evaluate | .change _ => .isTrue trivial

section
variable {service : Service} {projectId : Id} {s t : State}

theorem untold_putRule {rule stored : AlertRule} {who : String} {now : Int}
    (put : service.putRule rule who now = .ok stored) : untold stored = untold rule := by
  unfold Service.putRule at put
  simp only [bind, Except.bind] at put
  split at put
  · cases put
  split at put
  · cases put
  split at put
  · cases put
  · cases put
    rfl

theorem kept_of_wrote {wrote : AlertRule} (told : s.wrote = some wrote)
    (same : s.rule.map untold = some (untold wrote)) : Kept s :=
  ⟨by rw [same, told]; rfl, by rw [told]; nofun⟩

theorem Kept.step {e : Event} (kept : Kept s) (inTime : InTime s e) (next : Racing.step service projectId s e = some t) :
    Kept t := by
  cases e with
  | put rule who now =>
    dsimp only [Racing.step] at next
    split at next
    · cases next
      exact kept_of_wrote rfl rfl
    · cases next
  | remove =>
    cases next
    exact ⟨rfl, fun _ => rfl⟩
  | evaluate =>
    obtain ⟨rule, -, rfl⟩ := Option.map_eq_some_iff.mp next
    exact kept
  | change change =>
    obtain ⟨rule, -, rfl⟩ := Option.map_eq_some_iff.mp next
    exact kept
  | next i e now =>
    obtain ⟨call, here, next⟩ := Option.bind_eq_some_iff.mp next
    have allowed := inTime call here
    cases call with
    | evaluates rule =>
      cases next
      exact kept
    | judges rule held =>
      obtain ⟨wrote, told⟩ := Option.isSome_iff_exists.mp allowed
      cases next
      exact kept_of_wrote told (kept.1.trans (by rw [told]; rfl))
    | disables rule failures =>
      dsimp only [goOn] at next
      split at next
      · rename_i stored put
        cases next
        obtain ⟨wrote, told, same⟩ := Option.map_eq_some_iff.mp allowed
        exact kept_of_wrote told (congrArg some ((untold_putRule put).trans same.symm))
      · cases next
        exact kept
    | changes change rule =>
      dsimp only [goOn] at next
      split at next
      · cases next
        exact kept_of_wrote rfl rfl
      · cases next
        exact kept
    | changed change rule =>
      cases next
      exact kept
    | settles change rule held =>
      obtain ⟨wrote, told⟩ := Option.isSome_iff_exists.mp allowed
      cases next
      exact kept_of_wrote told (kept.1.trans (by rw [told]; rfl))
    | done => cases next

end

/-- An evaluation undoes no operator, where each call writes in time. -/
theorem evaluation_keeps_rule {service : Service} {projectId : Id} {s : State}
    (run : Reach (step service projectId) InTime start s) : Kept s :=
  run.invariant Kept ⟨rfl, fun _ => rfl⟩ fun _ _ _ kept inTime next => kept.step inTime next

def State.finished (s : State) : Bool :=
  s.calls.all fun call => match call with | .done => true | _ => false

def watched (name : String) : AlertRule :=
  { busy none with
    name
    projectId := List.replicate 16 0
    query := ⟨1, false, none, .trace, none, none, none, none, some ⟨List.replicate 16 0, []⟩, none, none, none⟩ }

def watching : Service := ⟨false, Query.unaryCodec, byBits⟩

def spent : Evaluation := ⟨.error, some .budgetExceeded, none, 0, ""⟩

/-- Two evaluations that ran out of their budget, and a third that is about to disable the rule. -/
def thirdFailure : List Event :=
  [.put (watched "first") "operator" 1, .evaluate, .next 0 spent 2, .next 0 spent 2, .evaluate, .next 1 spent 3,
    .next 1 spent 3, .evaluate, .next 2 spent 4, .next 2 spent 4]

theorem evaluation_keeps_rule_disabled : ∃ s, Reach (step watching 0) InTime start s ∧ Kept s ∧ s.finished = true ∧
    s.rule.map AlertRule.enabled = some false := by
  obtain ⟨s, run, seen⟩ := @Reach.of_exec_any _ _ (step watching 0) InTime _ start
    (thirdFailure ++ [.next 2 spent 5]) (fun s => s.finished = true ∧ s.rule.map AlertRule.enabled = some false)
    (by decide +kernel)
  exact ⟨s, run, evaluation_keeps_rule run, of_decide_eq_true seen⟩

/-- An operator's edit is written over by the copy that is disabled, and an evaluation stores the instance of a rule that
was removed. -/
theorem evaluation_undoes_operator :
    (∃ s, Reach (step watching 0) anyStep start s ∧ s.finished = true ∧ ¬Kept s ∧ s.wrote.isSome) ∧
      ∃ s, Reach (step watching 0) anyStep start s ∧ s.finished = true ∧ ¬Kept s ∧ s.wrote = none := by
  obtain ⟨s, run, seen⟩ := @Reach.of_exec_any _ _ (step watching 0) anyStep _ start
    (thirdFailure ++ [.put (watched "second") "operator" 5, .next 2 spent 6])
    (fun s => s.finished = true ∧ ¬Kept s ∧ s.wrote.isSome) (by decide +kernel)
  obtain ⟨t, run', seen'⟩ := @Reach.of_exec_any _ _ (step watching 0) anyStep _ start
    [.put (watched "first") "operator" 1, .evaluate, .next 0 spent 2, .remove, .next 0 spent 3]
    (fun s => s.finished = true ∧ ¬Kept s ∧ s.wrote = none) (by decide +kernel)
  exact ⟨⟨s, run, of_decide_eq_true seen⟩, t, run', of_decide_eq_true seen'⟩

end TallyOwl.Alerts.Racing
