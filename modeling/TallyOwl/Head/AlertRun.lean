import TallyOwl.Head.Alerts

/-! A rule over a run of evaluations (`alerts.rs`). A run is a list of evaluations, the newest first. -/
namespace TallyOwl.Alerts
open List

/-- One evaluation: how long the rule is silenced then, what was found, and when. -/
structure Tick where
  silencedUntil : Option Int
  evaluation : Evaluation
  now : Int

/-- What a run leaves: the stored instance, and when it last sent a notification. -/
structure Past where
  held : Option AlertInstance
  notifiedAt : Option Int

section
variable (partialCmp : UInt64 → UInt64 → Option Ordering) (projectId : Id) (rule : AlertRule)

def AlertRule.decideNext (past : Past) (t : Tick) : Decision :=
  { rule with silencedUntil := t.silencedUntil }.decide partialCmp past.held t.evaluation t.now projectId

def AlertRule.past : List Tick → Past
  | [] => ⟨none, none⟩
  | t :: earlier =>
      let d := rule.decideNext partialCmp projectId (past earlier) t
      ⟨some d.newInstance, if d.notify then some t.now else (past earlier).notifiedAt⟩

def Rising (ticks : List Tick) : Prop := ticks.Pairwise fun later earlier => earlier.now < later.now

/-- How long a condition has to hold: what the threshold sustains, or what an absence rule waits for. -/
def AlertRule.neededMs : Int :=
  match rule.absence with
  | some absence => absence.forMs
  | none => (rule.threshold.bind ThresholdCondition.sustainedMs).getD 0

/-- Every evaluation from one that is at least the needed time before `now` asked for firing, and none was an error. -/
def AlertRule.AskedLong (ticks : List Tick) (now : Int) : Prop :=
  ∃ late first earlier, ticks = late ++ first :: earlier ∧ first.now ≤ now - rule.neededMs ∧
    ∀ x ∈ late ++ [first], rule.wanted partialCmp x.evaluation = .firing ∧ x.evaluation.outcome ≠ .error

/-- The state before an evaluation, which is `ok` before the first. -/
def Past.state (past : Past) : String := (past.held.map AlertInstance.state).getD (stateName .ok)

structure TellsTruth (t : Tick) (earlier : List Tick) : Prop where
  fires : (rule.decideNext partialCmp projectId (rule.past partialCmp projectId earlier) t).newInstance.state =
    stateName .firing → rule.AskedLong partialCmp (t :: earlier) t.now
  sustained : rule.AskedLong partialCmp (t :: earlier) t.now →
    (rule.decideNext partialCmp projectId (rule.past partialCmp projectId earlier) t).newInstance.state ∈
      [stateName .firing, stateName .silenced]
  notifies : let past := rule.past partialCmp projectId earlier
    let d := rule.decideNext partialCmp projectId past t
    d.notify ↔ (d.newInstance.state ≠ past.state ∧ d.newInstance.state ≠ stateName .silenced) ∨
      (d.newInstance.state = stateName .firing ∧
        ∃ ms, rule.escalateAfterMs = some ms ∧ 0 < ms ∧ ∃ last, past.notifiedAt = some last ∧ ms ≤ t.now - last)
  quiet : t.silencedUntil.any (t.now < ·) →
    (rule.decideNext partialCmp projectId (rule.past partialCmp projectId earlier) t).notify = false

def AlertRule.askedSince : List Tick → Option Int
  | [] => none
  | t :: earlier =>
      if rule.wanted partialCmp t.evaluation = .firing then some ((askedSince earlier).getD t.now) else none

def AlertRule.lastWanted : List Tick → AlertState
  | [] => .ok
  | t :: _ => rule.wanted partialCmp t.evaluation

end

section
variable {partialCmp : UInt64 → UInt64 → Option Ordering} {projectId : Id} {rule : AlertRule} {ticks earlier : List Tick}
  {t : Tick} {s : AlertState} {since now : Int}

@[simp] theorem stateFrom_stateName (s : AlertState) : stateFrom (stateName s) = s := by
  cases s <;> rfl

theorem stateName_injective : Function.Injective stateName := Function.LeftInverse.injective stateFrom_stateName

theorem stateName_ne_empty (s : AlertState) : stateName s ≠ "" := by
  cases s <;> decide

theorem not_error_of_firing {e : Evaluation} (asked : rule.wanted partialCmp e = .firing) : e.outcome ≠ .error := by
  intro failed
  rw [AlertRule.wanted, failed] at asked
  cases asked

theorem needed_eq (one : rule.absence = none ∨ rule.threshold = none) {e : Evaluation}
    (asked : rule.wanted partialCmp e = .firing) : rule.needed e = rule.neededMs := by
  unfold AlertRule.wanted at asked
  unfold AlertRule.needed AlertRule.neededMs
  cases found : rule.absence with
  | none => cases outcome : e.outcome <;> simp_all
  | some absence =>
    obtain none : rule.threshold = none := one.resolve_left (by simp [found])
    cases outcome : e.outcome <;> simp_all

theorem one_condition {callbacks : Bool} (accepted : checkRule callbacks rule = .ok ()) :
    rule.absence = none ∨ rule.threshold = none := by
  by_contra both
  obtain ⟨absence, threshold⟩ := not_or.mp both
  have some : rule.threshold.isSome && rule.absence.isSome := by
    simp [Option.isSome_iff_ne_none, absence, threshold]
  have not : ¬(rule.threshold.isNone && rule.absence.isNone) := by simp [threshold]
  unfold checkRule at accepted
  cases blank : Wire.isBlank rule.ruleId <;> simp [blank, some, not, bind, Except.bind] at accepted

theorem askedSince_le (rising : Rising ticks) (asked : rule.askedSince partialCmp ticks = some since) :
    ∀ t ∈ ticks.head?, since ≤ t.now := by
  induction ticks generalizing since with
  | nil => cases asked
  | cons t earlier ih =>
    rintro _ ⟨⟩
    obtain ⟨before, rising⟩ := pairwise_cons.mp rising
    rw [AlertRule.askedSince] at asked
    split at asked
    · cases asked
      cases again : rule.askedSince partialCmp earlier with
      | none => exact le_rfl
      | some since =>
        cases earlier with
        | nil => cases again
        | cons last earlier =>
          exact (ih rising again last rfl).trans (before last mem_cons_self).le
    · cases asked

theorem askedLong_iff (rising : Rising ticks) (now : Int) : rule.AskedLong partialCmp ticks now ↔
    ∃ since, rule.askedSince partialCmp ticks = some since ∧ since ≤ now - rule.neededMs := by
  induction ticks with
  | nil => exact iff_of_false (fun ⟨late, _, _, split, _⟩ => by cases late <;> cases split) nofun
  | cons t earlier ih =>
    have ih := ih (pairwise_cons.mp rising).2
    rw [AlertRule.askedSince]
    constructor
    · rintro ⟨late, first, behind, split, long, asked⟩
      cases late with
      | nil =>
        obtain ⟨rfl, rfl⟩ := List.cons.inj split
        rw [if_pos (asked t mem_cons_self).1]
        refine ⟨_, rfl, le_trans ?_ long⟩
        exact askedSince_le rising (by rw [AlertRule.askedSince, if_pos (asked t mem_cons_self).1]) t rfl
      | cons x late =>
        obtain ⟨rfl, rfl⟩ := List.cons.inj split
        obtain ⟨since, again, long⟩ :=
          ih.mp ⟨late, first, behind, rfl, long, fun x inside => asked x (mem_cons_of_mem _ inside)⟩
        rw [if_pos (asked t mem_cons_self).1]
        exact ⟨since, by rw [again]; rfl, long⟩
    · rintro ⟨since, found, long⟩
      split at found
      · rename_i asked
        have here := And.intro asked (not_error_of_firing asked)
        cases found
        cases again : rule.askedSince partialCmp earlier with
        | none =>
          rw [again] at long
          exact ⟨[], t, earlier, rfl, long, by simpa using here⟩
        | some since =>
          rw [again] at long
          obtain ⟨late, first, behind, rfl, long, all⟩ := ih.mpr ⟨since, again, long⟩
          exact ⟨t :: late, first, behind, rfl, long, forall_mem_cons.mpr ⟨here, all⟩⟩
      · cases found

variable (partialCmp rule) in
/-- What an instance says of the run behind it, with the time of the last notification. -/
structure Records (ticks : List Tick) (notifiedAt : Option Int) (i : AlertInstance) : Prop where
  state : ∃ s, i.state = stateName s
  asked : i.asked = stateName (rule.lastWanted partialCmp ticks)
  held : ∀ since, rule.askedSince partialCmp ticks = some since → i.lastEvaluatedAt = since + i.holdingMs
  evaluated : ∀ t ∈ ticks.head?, i.lastEvaluatedAt = t.now
  firing : i.state = stateName .firing →
    (∃ since, rule.askedSince partialCmp ticks = some since) ∧ rule.neededMs ≤ i.holdingMs ∧ notifiedAt.isSome
  notified : i.lastNotifiedAt = notifiedAt.getD 0

theorem records_new (at' : Int) : Records partialCmp rule [] none { newInstance rule.ruleId projectId with since := at' } where
  state := ⟨.ok, rfl⟩
  asked := rfl
  held _ found := by cases found
  evaluated _ inside := by cases inside
  firing found := by
    have same : AlertState.ok = .firing := stateName_injective found
    cases same
  notified := rfl

variable {i : AlertInstance} {notifiedAt : Option Int}

theorem Records.holding (records : Records partialCmp rule earlier notifiedAt i) (rising : Rising (t :: earlier))
    (asked : rule.wanted partialCmp t.evaluation = .firing) : ∃ since,
    rule.askedSince partialCmp (t :: earlier) = some since ∧ rule.holding partialCmp i t.evaluation t.now = t.now - since ∧
      (i.state = stateName .firing → i.holdingMs ≤ t.now - since) := by
  rw [AlertRule.askedSince, if_pos asked, AlertRule.holding, asked, records.asked]
  by_cases again : rule.lastWanted partialCmp earlier = .firing
  · cases earlier with
    | nil => cases again
    | cons last earlier =>
      obtain ⟨since, found⟩ : ∃ since, rule.askedSince partialCmp (last :: earlier) = some since := ⟨_, if_pos again⟩
      have later := (pairwise_cons.mp rising).1 last mem_cons_self
      have evaluated := records.evaluated last rfl
      have held := records.held since found
      refine ⟨since, by rw [found]; rfl, ?_, fun _ => by omega⟩
      rw [if_pos (congrArg stateName again.symm)]
      omega
  · have none : rule.askedSince partialCmp earlier = none := by
      cases earlier with
      | nil => rfl
      | cons last earlier => exact if_neg again
    refine ⟨t.now, by rw [none]; rfl, ?_, fun firing => ?_⟩
    · rw [if_neg fun same => again (stateName_injective same).symm, sub_self]
    · obtain ⟨⟨since, found⟩, -⟩ := records.firing firing
      rw [none] at found
      cases found

/-- A notification is sent where the state changed, or an escalation is due, and the rule is not silenced. -/
theorem notify_decideNext {past : Past} :
    let d := rule.decideNext partialCmp projectId past t
    let previous := rule.previous past.held t.now projectId
    let after := rule.escalateAfterMs.getD 0
    d.notify ↔ (d.newInstance.state ≠ previous.state ∨
      d.newInstance.state = stateName .firing ∧ 0 < after ∧ after ≤ t.now - previous.lastNotifiedAt) ∧
        d.newInstance.state ≠ stateName .silenced := by
  have same : { rule with silencedUntil := t.silencedUntil }.previous past.held t.now projectId =
    rule.previous past.held t.now projectId := rfl
  simp only [AlertRule.decideNext, AlertRule.decide, same, stateName_injective.eq_iff, stateName_injective.ne_iff,
    Bool.and_eq_true, Bool.or_eq_true, bne_iff_ne, beq_iff_eq, decide_eq_true_eq, Bool.not_eq_true',
    bne_eq_false_iff_eq, ne_eq]
  tauto

/-- Where a rule moves to: to `firing` only once its condition has held long enough, from there only to `firing` or
`silenced`, and while it is silenced nowhere else than to `silenced`. -/
theorem Records.moves (records : Records partialCmp rule earlier notifiedAt i) (rising : Rising (t :: earlier))
    (one : rule.absence = none ∨ rule.threshold = none) {r : AlertRule} (same : r = { rule with silencedUntil := t.silencedUntil }) :
    let state := r.moved partialCmp i t.evaluation t.now
    (state = .firing → ∃ since, rule.askedSince partialCmp (t :: earlier) = some since ∧
      rule.neededMs ≤ rule.holding partialCmp i t.evaluation t.now) ∧
    ((∃ since, rule.askedSince partialCmp (t :: earlier) = some since ∧ since ≤ t.now - rule.neededMs) →
      state = .firing ∨ state = .silenced) ∧
    (t.silencedUntil.any (t.now < ·) → state = .silenced ∨ (stateName state = i.state ∧ state ≠ .firing)) := by
  obtain ⟨s, named⟩ := records.state
  have known : (if i.state = "" then AlertState.ok else stateFrom i.state) = s := by
    rw [named, if_neg (stateName_ne_empty s), stateFrom_stateName]
  have wanted : r.wanted partialCmp t.evaluation = rule.wanted partialCmp t.evaluation := by rw [same]; rfl
  have holding : r.holding partialCmp i t.evaluation t.now = rule.holding partialCmp i t.evaluation t.now := by
    rw [same]; rfl
  have needed : r.needed t.evaluation = rule.needed t.evaluation := by rw [same]; rfl
  have silenced : r.silencedBy t.now = t.silencedUntil.any (t.now < ·) := by rw [same]; rfl
  dsimp only
  rw [AlertRule.moved, known, wanted, holding, needed, silenced]
  by_cases asked : rule.wanted partialCmp t.evaluation = .firing
  · obtain ⟨since, found, held, grows⟩ := records.holding rising asked
    rw [needed_eq one asked, found, held]
    by_cases short : t.now - since < rule.neededMs
    · have counting : s ≠ .firing := by
        rintro rfl
        exact absurd ((records.firing named).2.1.trans (grows named)) (by omega)
      rw [if_pos ⟨asked, short⟩]
      refine ⟨fun firing => absurd firing counting, ?_, fun _ => .inr ⟨named.symm, counting⟩⟩
      rintro ⟨_, ⟨⟩, long⟩
      omega
    · rw [if_neg fun both => short both.2, asked]
      refine ⟨fun _ => ⟨since, rfl, by omega⟩, fun _ => ?_, fun quiet => ?_⟩
      · split
        · exact .inr rfl
        · exact .inl rfl
      · exact .inl (if_pos quiet)
  · have none : rule.askedSince partialCmp (t :: earlier) = none := if_neg asked
    rw [if_neg fun both => asked both.1, none]
    refine ⟨fun firing => ?_, fun ⟨_, found, _⟩ => (nomatch found), fun quiet => .inl (if_pos quiet)⟩
    split at firing
    · cases firing
    · exact absurd firing asked

theorem lastNotified_decideNext {past : Past} :
    (rule.decideNext partialCmp projectId past t).newInstance.lastNotifiedAt =
      if (rule.decideNext partialCmp projectId past t).notify then t.now
      else (rule.previous past.held t.now projectId).lastNotifiedAt := rfl

theorem records_past (one : rule.absence = none ∨ rule.threshold = none) (rising : Rising ticks) (at' : Int) :
    Records partialCmp rule ticks (rule.past partialCmp projectId ticks).notifiedAt
      (rule.previous (rule.past partialCmp projectId ticks).held at' projectId) := by
  induction ticks generalizing at' with
  | nil => exact records_new at'
  | cons t earlier ih =>
    have records := ih (pairwise_cons.mp rising).2 t.now
    have moves := records.moves rising one rfl
    have notify := @notify_decideNext partialCmp projectId rule t (rule.past partialCmp projectId earlier)
    refine ⟨⟨_, rfl⟩, if_neg (stateName_ne_empty _), fun since found => ?_, ?_, fun firing => ?_, ?_⟩
    · have asked : rule.wanted partialCmp t.evaluation = .firing := by
        by_contra other
        cases found.symm.trans (if_neg other)
      obtain ⟨since', found', held, -⟩ := records.holding rising asked
      obtain rfl := Option.some.inj (found'.symm.trans found)
      exact (show t.now = since' + (t.now - since') by omega).trans (congrArg (since' + ·) held.symm)
    · rintro _ ⟨⟩
      rfl
    · obtain ⟨since, found, long⟩ := moves.1 (stateName_injective firing)
      refine ⟨⟨since, found⟩, long, ?_⟩
      simp only [AlertRule.past]
      split
      · rfl
      · rename_i quiet
        refine (records.firing ?_).2.2
        by_contra changed
        refine quiet (notify.mpr ⟨.inl fun same => changed (same.symm.trans firing), fun silent => ?_⟩)
        cases stateName_injective (firing.symm.trans silent)
    · refine lastNotified_decideNext.trans ?_
      rw [AlertRule.past]
      dsimp only
      split
      · rfl
      · exact records.notified

end

/-- A rule that is accepted fires only where its condition held long enough, and is firing or silenced once it did. It
notifies where its state changes to one other than silenced, or where it is firing, asks for an escalation after a time
that is positive, and sent the last notification that long ago. It sends none while it is silenced. -/
theorem alert_tells_truth (partialCmp : UInt64 → UInt64 → Option Ordering) (projectId : Id) (rule : AlertRule)
    (callbacks : Bool) (accepted : checkRule callbacks rule = .ok ()) (t : Tick) (earlier : List Tick)
    (rising : Rising (t :: earlier)) : TellsTruth partialCmp projectId rule t earlier := by
  have one := one_condition accepted
  have records := @records_past partialCmp projectId rule earlier one (List.pairwise_cons.mp rising).2 t.now
  obtain ⟨fires, sustained, quiet⟩ := records.moves rising one rfl
  have notify := @notify_decideNext partialCmp projectId rule t (rule.past partialCmp projectId earlier)
  have before : (rule.past partialCmp projectId earlier).state =
      (rule.previous (rule.past partialCmp projectId earlier).held t.now projectId).state := by
    rw [Past.state, AlertRule.previous]
    cases (rule.past partialCmp projectId earlier).held <;> rfl
  refine ⟨fun firing => ?_, fun long => ?_, ?_, fun silenced => ?_⟩
  · obtain ⟨since, found, long⟩ := fires (stateName_injective firing)
    have asked : rule.wanted partialCmp t.evaluation = .firing := by
      by_contra other
      cases found.symm.trans (if_neg other)
    obtain ⟨since', found', held, -⟩ := records.holding rising asked
    obtain rfl := Option.some.inj (found'.symm.trans found)
    exact (askedLong_iff rising t.now).mpr ⟨since', found, by omega⟩
  · obtain firing | silenced := sustained ((askedLong_iff rising t.now).mp long)
    · exact List.mem_cons.mpr (.inl (congrArg stateName firing))
    · exact List.mem_cons_of_mem _ (List.mem_singleton.mpr (congrArg stateName silenced))
  · dsimp only
    rw [before]
    refine notify.trans ⟨?_, ?_⟩
    · rintro ⟨changed | ⟨firing, positive, due⟩, loud⟩
      · exact .inl ⟨changed, loud⟩
      · by_cases changed : (rule.previous (rule.past partialCmp projectId earlier).held t.now projectId).state =
            stateName .firing
        · obtain ⟨-, -, sent⟩ := records.firing changed
          obtain ⟨last, sent⟩ := Option.isSome_iff_exists.mp sent
          have notified := records.notified
          rw [sent] at notified
          cases escalate : rule.escalateAfterMs with
          | none => simp [escalate] at positive
          | some ms =>
            simp only [escalate, Option.getD_some, notified] at positive due
            exact .inr ⟨firing, ms, rfl, positive, last, sent, due⟩
        · exact .inl ⟨fun same => changed (same.symm.trans firing), loud⟩
    · rintro (⟨changed, loud⟩ | ⟨firing, ms, escalate, positive, last, sent, due⟩)
      · exact ⟨.inl changed, loud⟩
      · have notified := records.notified
        rw [sent] at notified
        refine ⟨.inr ⟨firing, ?_⟩, fun silent => ?_⟩
        · simp only [escalate, Option.getD_some, notified]
          exact ⟨positive, due⟩
        · cases stateName_injective (firing.symm.trans silent)
  · rw [Bool.eq_false_iff]
    intro sent
    obtain ⟨changed, loud⟩ := notify.mp sent
    obtain silent | ⟨same, counting⟩ := quiet silenced
    · exact loud (congrArg stateName silent)
    · obtain other | ⟨firing, -⟩ := changed
      · exact other same
      · exact counting (stateName_injective firing)

def busy (escalateAfterMs : Option Int) : AlertRule where
  ruleId := "busy"
  name := "busy"
  projectId := []
  query := ⟨1, false, none, .node, none, none, none, none, none, none, none, none⟩
  consistency := .committed
  intervalMs := 60000
  threshold := some ⟨.gt, 0, some 60000⟩
  absence := none
  notify := []
  enabled := true
  escalateAfterMs
  silencedUntil := none
  silenceReason := none
  disabledReason := none
  updatedAt := none
  updatedBy := none

def ten (now : Int) : Tick := ⟨none, ⟨.value, none, some 0x4024000000000000, 7, ""⟩, now⟩

def byBits (a b : UInt64) : Option Ordering := some (compare a b)

theorem alert_tells_truth_busy : TellsTruth byBits 0 (busy none) (ten 70000) [ten 10000] ∧
    ((busy none).decideNext byBits 0 ((busy none).past byBits 0 [ten 10000]) (ten 70000)).notify = true :=
  ⟨alert_tells_truth byBits 0 (busy none) true rfl (ten 70000) [ten 10000] (by simp [Rising, ten]), by decide +kernel⟩

/-- A rule that escalates after no time at all is firing still and sends nothing. -/
theorem no_escalation_at_once : ∃ rule t earlier, checkRule true rule = .ok () ∧ Rising (t :: earlier) ∧
    let past := rule.past byBits 0 earlier
    let d := rule.decideNext byBits 0 past t
    d.newInstance.state = stateName .firing ∧ d.notify = false ∧
      ∃ ms last, rule.escalateAfterMs = some ms ∧ past.notifiedAt = some last ∧ ms ≤ t.now - last :=
  ⟨busy (some 0), ten 130000, [ten 70000, ten 10000], rfl, by simp [Rising, ten], by decide +kernel, by decide +kernel,
    0, 70000, rfl, by decide +kernel, by decide⟩

end TallyOwl.Alerts
