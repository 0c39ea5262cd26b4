import TallyOwl.Head.Correlated
import TallyOwl.Lib.KeyTotals

/-! The numbers of a funnel agree with one another, and do not depend on the order of the rows. -/
namespace TallyOwl.Analysis
open Lib OrderedMap Identify List
open Query (QueryError)
open Locate (InI64)

variable {floatText : UInt64 → String} {guards : Guards} {real exclusions : List Step} {question : FunnelQuestion}

/-! The answer, apart from the guards. -/

section
variable (floatText real exclusions question)

def accounted (accounts : Accounts) (owned : List (List EventRow)) : Accounts :=
  owned.foldl (accountKey floatText real exclusions question) accounts

def answer (rows : List EventRow) (incomplete : Bool) (identity : Identity) (steps : List Step) : FunnelResult :=
  let held := correlated (fun row => identity.keyFor row question.basis question.resolution) rows ⟨∅, 0⟩
  let real := steps.filter fun step => !step.exclusion
  let exclusions := steps.filter fun step => step.exclusion
  let accounts := accounted floatText real exclusions question ⟨blank real, ∅⟩ (ordered held).values
  ⟨accounts.totals, accounts.byDimension, incomplete, (ordered held).entries.length, held.rowsWithoutIdentity⟩

end

theorem accountKeys_ok {owned : List (List EventRow)} {index : Nat} {accounts out : Accounts}
    (done : accountKeys floatText guards real exclusions question index accounts owned = .ok out) :
    out = accounted floatText real exclusions question accounts (owned.map inTimeOrder) := by
  induction owned generalizing index accounts with
  | nil => exact (Except.ok.inj done).symm
  | cons one rest ih =>
    unfold accountKeys at done
    cases timely : guards.checkTime guards.lateAtKey index with
    | error e =>
      rw [timely] at done
      cases done
    | ok =>
      rw [timely] at done
      exact ih done

theorem accountKeys_inTime (inTime : guards.InTime) (owned : List (List EventRow)) (index : Nat) (accounts : Accounts) :
    accountKeys floatText guards real exclusions question index accounts owned =
      .ok (accounted floatText real exclusions question accounts (owned.map inTimeOrder)) := by
  induction owned generalizing index accounts with
  | nil => rfl
  | cons one rest ih =>
    unfold accountKeys
    rw [checkTime_of_quiet (inTime index).2]
    exact ih (index + 1) _

section
variable {rows rows' : List EventRow} {incomplete : Bool} {identity : Identity} {steps : List Step} {result : FunnelResult}

theorem funnel_checked (checked : checkFunnel guards steps question = .ok ()) :
    funnel floatText guards rows incomplete identity steps question = (correlate guards (Basis.counted question.basis)
        (fun row => identity.keyFor row question.basis question.resolution) 0 ⟨∅, 0⟩ rows).bind fun held =>
      (accountKeys floatText guards (steps.filter fun step => !step.exclusion) (steps.filter fun step => step.exclusion)
        question 0 ⟨blank (steps.filter fun step => !step.exclusion), ∅⟩ held.byKey.values).bind fun accounts =>
      .ok ⟨accounts.totals, accounts.byDimension, incomplete, held.byKey.entries.length, held.rowsWithoutIdentity⟩ := by
  unfold funnel
  rw [checked]
  rfl

theorem window_of_checked (checked : checkFunnel guards steps question = .ok ()) : 0 < question.windowMs := by
  unfold checkFunnel at checked
  split_ifs at checked with none many out window
  exact not_le.mp window

theorem funnel_ok (done : funnel floatText guards rows incomplete identity steps question = .ok result) :
    result = answer floatText question rows incomplete identity steps ∧ 0 < question.windowMs := by
  cases checked : checkFunnel guards steps question with
  | error e =>
    unfold funnel at done
    rw [checked] at done
    cases done
  | ok =>
    refine ⟨?_, window_of_checked checked⟩
    rw [funnel_checked checked] at done
    cases taken : correlate guards (Basis.counted question.basis)
        (fun row => identity.keyFor row question.basis question.resolution) 0 ⟨∅, 0⟩ rows with
    | error e =>
      rw [taken] at done
      cases done
    | ok held =>
      rw [taken] at done
      obtain rfl := correlate_ok taken
      cases counted : accountKeys floatText guards (steps.filter fun step => !step.exclusion)
          (steps.filter fun step => step.exclusion) question 0 ⟨blank (steps.filter fun step => !step.exclusion), ∅⟩
          (correlated (fun row => identity.keyFor row question.basis question.resolution) rows ⟨∅, 0⟩).byKey.values with
      | error e =>
        simp only [Except.bind, counted] at done
        cases done
      | ok accounts =>
        simp only [Except.bind, counted] at done
        cases done
        obtain rfl := accountKeys_ok counted
        rw [answer, values_ordered, length_ordered]

theorem funnel_inTime (inTime : guards.InTime) (checked : checkFunnel guards steps question = .ok ()) :
    funnel floatText guards rows incomplete identity steps question =
      if (ordered (correlated (fun row => identity.keyFor row question.basis question.resolution) rows ⟨∅, 0⟩)).entries.length ≤
          guards.maxCorrelationKeys then .ok (answer floatText question rows incomplete identity steps)
      else .error (overBudget (Basis.counted question.basis) s!"more than {guards.maxCorrelationKeys}"
        guards.maxCorrelationKeys) := by
  rw [funnel_checked checked, correlate_inTime inTime rows 0 (Nat.zero_le _), length_ordered]
  split_ifs with few
  · simp only [Except.bind, accountKeys_inTime inTime]
    rw [answer, values_ordered, length_ordered]
  · rfl

theorem answer_perm (perm : rows.Perm rows') (apart : (rows.map EventRow.eventId).Nodup) :
    answer floatText question rows incomplete identity steps = answer floatText question rows' incomplete identity steps := by
  rw [answer, answer, ordered_perm perm apart, unidentified_perm perm]

theorem funnel_perm (inTime : guards.InTime) (perm : rows.Perm rows') (apart : (rows.map EventRow.eventId).Nodup) :
    funnel floatText guards rows incomplete identity steps question =
      funnel floatText guards rows' incomplete identity steps question := by
  cases checked : checkFunnel guards steps question with
  | error e =>
    unfold funnel
    rw [checked]
    rfl
  | ok => rw [funnel_inTime inTime checked, funnel_inTime inTime checked, ordered_perm perm apart, answer_perm perm apart]

end

/-! One key's walk. -/

def FunnelQuestion.Span (question : FunnelQuestion) (time : Int) : Prop :=
  (if question.ordered then 0 ≤ time else -question.windowMs < time) ∧ time < question.windowMs

variable {rows : List EventRow}

theorem mem_walkOn {inside : EventRow → Bool} {steps : List Step} {moment : Int}
    (reached : some moment ∈ walkOn inside rows steps) : ∃ row, inside row = true ∧ row.occurredAt = moment := by
  induction steps generalizing rows with
  | nil => cases reached
  | cons step steps ih =>
    unfold walkOn at reached
    cases left : rows.dropWhile fun row => !(inside row && step.keeps row) with
    | nil =>
      rw [left] at reached
      simp at reached
    | cons row later =>
      rw [left] at reached
      rcases mem_cons.mp reached with here | behind
      · have head := head?_dropWhile_not (fun row => !(inside row && step.keeps row)) rows
        rw [left] at head
        have both : inside row = true ∧ step.keeps row = true := by simpa using head
        exact ⟨row, both.1, (Option.some.inj here).symm⟩
      · exact ih behind

theorem mem_walkAnyOrder {inside : EventRow → Bool} {steps : List Step} {moment : Int}
    (reached : some moment ∈ walkAnyOrder inside rows steps) : ∃ row, inside row = true ∧ row.occurredAt = moment := by
  induction steps with
  | nil => cases reached
  | cons step steps ih =>
    unfold walkAnyOrder at reached
    cases least : (((rows.filter inside).filter step.keeps).map EventRow.occurredAt).min? with
    | none =>
      rw [least] at reached
      simp at reached
    | some first =>
      rw [least] at reached
      rcases mem_cons.mp reached with here | behind
      · obtain ⟨row, kept, same⟩ := mem_map.mp (min?_mem least)
        exact ⟨row, (List.mem_filter.mp (List.mem_filter.mp kept).1).2, same.trans (Option.some.inj here).symm⟩
      · exact ih behind

theorem walk_spans {steps : List Step} {walked : Walked} (window : 0 < question.windowMs)
    (stamps : ∀ row ∈ rows, InI64 row.occurredAt) (done : walk rows steps exclusions question = some walked) :
    ∃ started later, walked.reached = some started :: later ∧ ∀ moment, some moment ∈ later → question.Span (moment - started) := by
  unfold walk at done
  obtain ⟨first, head, done⟩ := Option.bind_eq_some_iff.mp done
  obtain ⟨index, entered, done⟩ := Option.bind_eq_some_iff.mp done
  obtain ⟨openedAt, opened, done⟩ := Option.bind_eq_some_iff.mp done
  obtain ⟨_, unvoided, done⟩ := Option.bind_eq_some_iff.mp done
  obtain ⟨opening, there, rfl⟩ := Option.map_eq_some_iff.mp opened
  have stamp := stamps opening (mem_of_getElem? there)
  have closes : question.closesAt opening.occurredAt ≤ opening.occurredAt + question.windowMs := by
    unfold InI64 at stamp
    unfold FunnelQuestion.closesAt Calendar.saturate
    omega
  have bounds {row : EventRow} {moment : Int} (same : row.occurredAt = moment)
      (inside : insideWindow opening.occurredAt (question.closesAt opening.occurredAt) row = true) :
      opening.occurredAt ≤ moment ∧ moment < opening.occurredAt + question.windowMs := by
    unfold insideWindow at inside
    have both := of_decide_eq_true inside
    omega
  unfold FunnelQuestion.Span
  cases way : question.ordered with
  | true =>
    rw [way, if_pos rfl] at done
    cases done
    refine ⟨_, _, rfl, fun moment reached => ?_⟩
    obtain ⟨row, inside, same⟩ := mem_walkOn reached
    have limits := bounds same inside
    simp only [if_true]
    omega
  | false =>
    rw [way, if_neg Bool.false_ne_true] at done
    obtain ⟨_, some, done⟩ := Option.bind_eq_some_iff.mp done
    cases done
    cases reached : walkAnyOrder (insideWindow opening.occurredAt (question.closesAt opening.occurredAt)) rows steps with
    | nil =>
      rw [reached] at some
      cases some
    | cons one later =>
      cases one with
      | none =>
        rw [reached] at some
        cases some
      | some started =>
        refine ⟨started, later, rfl, fun moment inside => ?_⟩
        have all {moment : Int} (member : Option.some moment ∈ Option.some started :: later) :
            opening.occurredAt ≤ moment ∧ moment < opening.occurredAt + question.windowMs := by
          obtain ⟨row, within, same⟩ := mem_walkAnyOrder (reached ▸ member)
          exact bounds same within
        have here := all mem_cons_self
        have there := all (mem_cons_of_mem _ inside)
        simp only [Bool.false_eq_true, if_false]
        omega

/-! What one key adds. -/

/-- Later steps whose numbers agree: each as many times as keys, all in bounds, and no step more keys than one before. -/
structure Later (Q : Int → Prop) (steps : List StepResult) : Prop where
  falling : (steps.map StepResult.reached).Pairwise (· ≥ ·)
  counted : ∀ step ∈ steps, step.conversionTimesMs.length = step.reached
  within : ∀ step ∈ steps, ∀ time ∈ step.conversionTimesMs, Q time

variable {steps : List StepResult} {started : Int} {reached : List (Option Int)}

theorem mem_creditLater {step : StepResult}
    (inside : step ∈ creditLater started reached steps) : ∃ before ∈ steps, step.reached ≤ before.reached + 1 := by
  induction reached generalizing steps with
  | nil => exact ⟨step, inside, Nat.le_succ _⟩
  | cons one reached ih =>
    cases one with
    | none => exact ⟨step, inside, Nat.le_succ _⟩
    | some moment =>
      cases steps with
      | nil => cases inside
      | cons first rest =>
        rcases mem_cons.mp inside with rfl | behind
        · exact ⟨first, mem_cons_self, le_refl _⟩
        · obtain ⟨before, there, less⟩ := ih behind
          exact ⟨before, mem_cons_of_mem _ there, less⟩

theorem Later.creditLater {Q : Int → Prop}
    (later : Later Q steps) (spans : ∀ moment, some moment ∈ reached → Q (moment - started)) :
    Later Q (creditLater started reached steps) := by
  induction reached generalizing steps with
  | nil => exact later
  | cons one reached ih =>
    cases one with
    | none => exact later
    | some moment =>
      cases steps with
      | nil => exact later
      | cons first rest =>
        obtain ⟨above, falling⟩ := pairwise_cons.mp later.falling
        have more : Later Q (Analysis.creditLater started reached rest) := ih
          ⟨falling, fun step inside => later.counted step (mem_cons_of_mem _ inside),
            fun step inside => later.within step (mem_cons_of_mem _ inside)⟩
          fun moment inside => spans moment (mem_cons_of_mem _ inside)
        refine ⟨pairwise_cons.mpr ⟨fun number inside => ?_, more.falling⟩, fun step inside => ?_,
          fun step inside => ?_⟩
        · obtain ⟨step, there, rfl⟩ := mem_map.mp inside
          obtain ⟨before, was, less⟩ := mem_creditLater there
          exact less.trans (Nat.succ_le_succ (above _ (mem_map_of_mem was)))
        · rcases mem_cons.mp inside with rfl | behind
          · simp [later.counted first mem_cons_self]
          · exact more.counted step behind
        · rcases mem_cons.mp inside with rfl | behind
          · intro time one
            rcases mem_append.mp one with old | new
            · exact later.within first mem_cons_self time old
            · rw [mem_singleton.mp new]
              exact spans moment mem_cons_self
          · exact more.within step behind

def Agrees (Q : Int → Prop) : List StepResult → Prop
  | [] => True
  | first :: later => first.conversionTimesMs = [] ∧ (∀ step ∈ later, step.reached ≤ first.reached) ∧ Later Q later

theorem Agrees.credit {Q : Int → Prop}
    (agrees : Agrees Q steps) (spans : ∀ moment, some moment ∈ reached → Q (moment - started)) :
    Agrees Q (credit (some started :: reached) steps) := by
  cases steps with
  | nil => trivial
  | cons first rest =>
    obtain ⟨none, above, later⟩ := agrees
    refine ⟨none, fun step inside => ?_, later.creditLater spans⟩
    obtain ⟨before, was, less⟩ := mem_creditLater inside
    exact less.trans (Nat.succ_le_succ (above before was))

theorem agrees_blank (Q : Int → Prop) (real : List Step) : Agrees Q (blank real) := by
  have zero : ∀ step ∈ blank real, step.reached = 0 ∧ step.conversionTimesMs = [] := by
    intro step inside
    obtain ⟨one, -, rfl⟩ := mem_map.mp inside
    exact ⟨rfl, rfl⟩
  cases steps : blank real with
  | nil => trivial
  | cons first rest =>
    rw [steps] at zero
    obtain ⟨own, others⟩ := forall_mem_cons.mp zero
    refine ⟨own.2, fun step inside => ?_, pairwise_iff_forall_sublist.mpr fun {a b} sub => ?_, fun step inside => ?_,
      fun step inside time one => ?_⟩
    · rw [(others step inside).1, own.1]
    · obtain ⟨step, there, rfl⟩ := mem_map.mp (sub.subset (mem_cons_of_mem _ mem_cons_self))
      rw [(others step there).1]
      exact Nat.zero_le _
    · rw [(others step inside).1, (others step inside).2]
      rfl
    · rw [(others step inside).2] at one
      cases one

def reachedOf (steps : List StepResult) (i : Nat) : Nat := (steps.map StepResult.reached).getD i 0

def gained (reached : List (Option Int)) (n i : Nat) : Nat :=
  if i < n ∧ i < (reached.takeWhile Option.isSome).length then 1 else 0

theorem length_creditLater (started : Int) (reached : List (Option Int)) (steps : List StepResult) :
    (creditLater started reached steps).length = steps.length := by
  induction reached generalizing steps with
  | nil => rfl
  | cons one reached ih =>
    cases one with
    | none => rfl
    | some moment =>
      cases steps with
      | nil => rfl
      | cons first rest => simp [creditLater, ih]

theorem length_credit (reached : List (Option Int)) (steps : List StepResult) :
    (credit reached steps).length = steps.length := by
  rcases reached with _ | ⟨_ | started, reached⟩
  · rfl
  · rfl
  · cases steps with
    | nil => rfl
    | cons first rest => simp [credit, length_creditLater]

theorem reachedOf_creditLater (started : Int) (reached : List (Option Int)) (steps : List StepResult) (i : Nat) :
    reachedOf (creditLater started reached steps) i = reachedOf steps i + gained reached steps.length i := by
  induction reached generalizing steps i with
  | nil => simp [creditLater, gained]
  | cons one reached ih =>
    cases one with
    | none => simp [creditLater, gained]
    | some moment =>
      cases steps with
      | nil => simp [creditLater, gained]
      | cons first rest =>
        cases i with
        | zero => simp [creditLater, reachedOf, gained]
        | succ i =>
          have more := ih rest i
          simp only [reachedOf, gained] at more
          simpa [creditLater, reachedOf, gained] using more

theorem reachedOf_credit (reached : List (Option Int)) (steps : List StepResult) (i : Nat) :
    reachedOf (credit reached steps) i = reachedOf steps i + gained reached steps.length i := by
  rcases reached with _ | ⟨_ | started, reached⟩
  · simp [credit, gained]
  · simp [credit, gained]
  · cases steps with
    | nil => simp [credit, gained]
    | cons first rest =>
      cases i with
      | zero => simp [credit, reachedOf, gained]
      | succ i =>
        have more := reachedOf_creditLater started reached rest i
        simp only [reachedOf, gained] at more
        simpa [credit, reachedOf, gained] using more

theorem reachedOf_blank (real : List Step) (i : Nat) : reachedOf (blank real) i = 0 := by
  simp only [reachedOf, blank, getD_eq_getElem?_getD, getElem?_map]
  cases real[i]? <;> rfl

/-! All keys. -/

/-- The accounts of a funnel agree: each list of steps in itself, and the parts with the whole. -/
structure Accounts.Agree (question : FunnelQuestion) (real : List Step) (accounts : Accounts) : Prop where
  totals : Agrees question.Span accounts.totals
  length : accounts.totals.length = real.length
  parts : ∀ value parts, accounts.byDimension.get? value = some parts →
    Agrees question.Span parts ∧ parts.length = real.length
  whole : question.breakdown.isSome → ∀ i,
    total (fun _ parts => reachedOf parts i) accounts.byDimension = reachedOf accounts.totals i

theorem agree_blank (question : FunnelQuestion) (real : List Step) : Accounts.Agree question real ⟨blank real, ∅⟩ :=
  ⟨agrees_blank _ real, by simp [blank], nofun, fun _ i => (reachedOf_blank real i).symm⟩

theorem Accounts.Agree.accountKey {accounts : Accounts} {owned : List EventRow} (agree : accounts.Agree question real)
    (window : 0 < question.windowMs) (stamps : ∀ row ∈ owned, InI64 row.occurredAt) :
    (accountKey floatText real exclusions question accounts owned).Agree question real := by
  unfold Analysis.accountKey
  cases done : walk owned real exclusions question with
  | none => exact agree
  | some walked =>
    obtain ⟨started, later, reached, spans⟩ := walk_spans window stamps done
    simp only [reached]
    have totals := agree.totals.credit spans
    have length := (length_credit (some started :: later) accounts.totals).trans agree.length
    cases asked : question.breakdown with
    | none => exact ⟨totals, length, agree.parts, fun some => by rw [asked] at some; cases some⟩
    | some name =>
      simp only
      generalize bucketed : ((owned[walked.enteredAtIndex]?).bind fun row => propertyText floatText row name).getD
        "(not set)" = bucket
      have held : Agrees question.Span ((accounts.byDimension.get? bucket).getD (blank real)) ∧
          ((accounts.byDimension.get? bucket).getD (blank real)).length = real.length := by
        cases old : accounts.byDimension.get? bucket with
        | none => exact ⟨agrees_blank _ real, by simp [blank]⟩
        | some parts => exact agree.parts bucket parts old
      refine ⟨totals, length, fun value parts found => ?_, fun _ i => ?_⟩
      · rw [get?_insert] at found
        split_ifs at found
        · cases found
          exact ⟨held.1.credit spans, (length_credit _ _).trans held.2⟩
        · exact agree.parts value parts found
      · have moved := total_insert (fun _ parts => reachedOf parts i) accounts.byDimension bucket
          (credit (some started :: later) ((accounts.byDimension.get? bucket).getD (blank real)))
        have whole := agree.whole (by rw [asked]; rfl) i
        have old : (accounts.byDimension.get? bucket).elim 0 (fun parts => reachedOf parts i) =
            reachedOf ((accounts.byDimension.get? bucket).getD (blank real)) i := by
          cases accounts.byDimension.get? bucket with
          | none => exact (reachedOf_blank real i).symm
          | some parts => rfl
        rw [reachedOf_credit, held.2] at moved
        rw [reachedOf_credit, agree.length]
        change total _ (accounts.byDimension.insert bucket _) = _
        omega

theorem Accounts.Agree.accounted {owned : List (List EventRow)} {accounts : Accounts} (agree : accounts.Agree question real)
    (window : 0 < question.windowMs) (stamps : ∀ rows ∈ owned, ∀ row ∈ rows, InI64 row.occurredAt) :
    (accounted floatText real exclusions question accounts owned).Agree question real := by
  induction owned generalizing accounts with
  | nil => exact agree
  | cons one rest ih =>
    exact ih (agree.accountKey window (stamps one mem_cons_self))
      fun rows inside => stamps rows (mem_cons_of_mem _ inside)

/-- The numbers of a list of steps: no step more keys than one before, each step behind the first as many times as keys,
and each time in bounds. -/
structure Coherent (question : FunnelQuestion) (steps : List StepResult) : Prop where
  falling : (steps.map StepResult.reached).Pairwise (· ≥ ·)
  counted : ∀ i step, steps[i]? = some step → step.conversionTimesMs.length = if i = 0 then 0 else step.reached
  within : ∀ step ∈ steps, ∀ time ∈ step.conversionTimesMs, question.Span time

theorem Agrees.coherent (agrees : Agrees question.Span steps) : Coherent question steps := by
  cases steps with
  | nil => exact ⟨.nil, nofun, nofun⟩
  | cons first rest =>
    obtain ⟨none, above, later⟩ := agrees
    refine ⟨pairwise_cons.mpr ⟨fun number inside => ?_, later.falling⟩, fun i step found => ?_,
      fun step inside => ?_⟩
    · obtain ⟨step, there, rfl⟩ := mem_map.mp inside
      exact above step there
    · cases i with
      | zero =>
        cases found
        rw [none]
        rfl
      | succ i => exact later.counted step (mem_of_getElem? found)
    · rcases mem_cons.mp inside with rfl | behind
      · rw [none]
        exact nofun
      · exact later.within step behind

theorem agree_answer (window : 0 < question.windowMs) (stamps : ∀ row ∈ rows, InI64 row.occurredAt)
    (floatText : UInt64 → String) (incomplete : Bool) (identity : Identity) (steps : List Step) :
    Accounts.Agree question (steps.filter fun step => !step.exclusion)
      ⟨(answer floatText question rows incomplete identity steps).steps,
        (answer floatText question rows incomplete identity steps).byDimension⟩ :=
  (agree_blank question (steps.filter fun step => !step.exclusion)).accounted window
    fun _ one row inside => stamps row (mem_of_ordered one inside)

/-- A funnel answers the same for its rows in any order, and the numbers of its answer agree. In ordered mode a time of
conversion lies between zero and the window, and in unordered mode within the window before or behind the first step. -/
theorem funnel_coherent {rows : List EventRow} (apart : (rows.map EventRow.eventId).Nodup)
    (stamps : ∀ row ∈ rows, InI64 row.occurredAt) (floatText : UInt64 → String) (incomplete : Bool) (identity : Identity)
    (steps : List Step) (question : FunnelQuestion) : (∀ rows', rows.Perm rows' →
      (∀ guards : Guards, guards.InTime → funnel floatText guards rows incomplete identity steps question =
        funnel floatText guards rows' incomplete identity steps question) ∧
      ∀ guards guards' result result', funnel floatText guards rows incomplete identity steps question = .ok result →
        funnel floatText guards' rows' incomplete identity steps question = .ok result' → result = result') ∧
    ∀ guards result, funnel floatText guards rows incomplete identity steps question = .ok result →
      Coherent question result.steps ∧
      (∀ value parts, result.byDimension.get? value = some parts → Coherent question parts) ∧
      (question.breakdown.isSome → ∀ i,
        total (fun _ parts => reachedOf parts i) result.byDimension = reachedOf result.steps i) := by
  refine ⟨fun rows' perm => ⟨fun guards inTime => funnel_perm inTime perm apart, fun guards guards' result result' one two => ?_⟩,
    fun guards result done => ?_⟩
  · rw [(funnel_ok one).1, (funnel_ok two).1, answer_perm perm apart]
  · obtain ⟨rfl, window⟩ := funnel_ok done
    have agree := agree_answer window stamps floatText incomplete identity steps
    exact ⟨agree.totals.coherent, fun value parts found => (agree.parts value parts found).1.coherent, agree.whole⟩

def generous : Guards := ⟨20, 1100, 2000000, 0, fun _ => false, fun _ => false⟩

def session (first second : String) : List EventRow :=
  [{ EventRow.new 1 "event" first 0 with sessionId := some "s" },
    { EventRow.new 2 "event" second 100 with sessionId := some "s" }]

def withinSecond (ordered : Bool) : FunnelQuestion := ⟨.session, .eventTime, 1000, ordered, none⟩

def viewsAndPurchases (rows : List EventRow) (ordered : Bool) : Except QueryError FunnelResult :=
  funnel (fun _ => "") generous rows false (.start 1) [named "view", named "buy"] (withinSecond ordered)

theorem funnel_coherent_session : viewsAndPurchases (session "view" "buy") true =
    viewsAndPurchases (session "view" "buy").reverse true := by
  have coherent := funnel_coherent (show ((session "view" "buy").map EventRow.eventId).Nodup by decide)
    (show ∀ row ∈ session "view" "buy", InI64 row.occurredAt by decide) (fun _ => "") false (.start 1)
    [named "view", named "buy"] (withinSecond true)
  exact (coherent.1 _ (List.reverse_perm _).symm).1 generous fun _ => ⟨rfl, rfl⟩

/-- In unordered mode a purchase before the view is reached a tenth of a second before the first step. -/
theorem conversion_before_first_step : (viewsAndPurchases (session "buy" "view") false).toOption.map (fun result =>
      result.steps.map StepResult.conversionTimesMs) = some [[], [-100]] := by
  decide +kernel

end TallyOwl.Analysis
