import TallyOwl.Head.Funnel

/-! A retention matrix counts people: each key in one cohort, and in each period behind it once, whatever the order of
the rows. -/
namespace TallyOwl.Analysis
open Lib OrderedMap Identify List
open Query (QueryError)

variable {guards : Guards} {question : RetentionQuestion}

/-! The answer, apart from the guards. -/

theorem joinCohorts_ok {owned : List (List EventRow)} {index : Nat} {cohorts out : OrderedMap Nat Cohort}
    (done : joinCohorts question guards index cohorts owned = .ok out) :
    (owned.map inTimeOrder).foldlM (joinCohort question) cohorts = some out := by
  induction owned generalizing index cohorts with
  | nil => exact congrArg some (Except.ok.inj done)
  | cons one rest ih =>
    unfold joinCohorts at done
    obtain ⟨_, -, done⟩ := Checked.bind_eq_ok.mp done
    obtain ⟨next, joined, done⟩ := Checked.bind_eq_ok.mp done
    rw [map_cons, foldlM_cons]
    cases made : joinCohort question cohorts (inTimeOrder one) with
    | none =>
      rw [made] at joined
      cases joined
    | some here =>
      rw [made] at joined
      cases joined
      exact ih done

theorem joinCohorts_inTime (inTime : guards.InTime) (owned : List (List EventRow)) (index : Nat)
    (cohorts : OrderedMap Nat Cohort) : joinCohorts question guards index cohorts owned =
      dated ((owned.map inTimeOrder).foldlM (joinCohort question) cohorts) := by
  induction owned generalizing index cohorts with
  | nil => rfl
  | cons one rest ih =>
    unfold joinCohorts
    rw [checkTime_of_quiet (inTime index).2, map_cons, foldlM_cons]
    cases joinCohort question cohorts (inTimeOrder one) with
    | none => rfl
    | some next => exact ih (index + 1) next

section
variable {rows rows' : List EventRow} {incomplete : Bool} {identity : Identity} {result : RetentionResult}

def RetentionQuestion.keyOf (question : RetentionQuestion) (identity : Identity) (row : EventRow) : Option String :=
  identity.keyFor row question.basis question.resolution

def matrix (question : RetentionQuestion) (identity : Identity) (rows : List EventRow) (incomplete : Bool)
    (cohorts : OrderedMap Nat Cohort) : RetentionResult :=
  ⟨unitName question.unit, cohorts.values, incomplete,
    (ordered (correlated (question.keyOf identity) rows ⟨∅, 0⟩)).entries.length,
    (correlated (question.keyOf identity) rows ⟨∅, 0⟩).rowsWithoutIdentity⟩

theorem retention_ok (done : retention question guards rows incomplete identity = .ok result) : ∃ cohorts,
    (ordered (correlated (question.keyOf identity) rows ⟨∅, 0⟩)).values.foldlM (joinCohort question) ∅ = some cohorts ∧
      result = matrix question identity rows incomplete cohorts := by
  unfold retention at done
  obtain ⟨_, -, done⟩ := Checked.bind_eq_ok.mp done
  obtain ⟨held, taken, done⟩ := Checked.bind_eq_ok.mp done
  obtain ⟨cohorts, joined, done⟩ := Checked.bind_eq_ok.mp done
  cases taking : correlate guards "correlation keys"
      (fun row => identity.keyFor row question.basis question.resolution) 0 ⟨∅, 0⟩ rows with
  | error e =>
    rw [taking] at taken
    cases taken
  | ok there =>
    rw [taking] at taken
    cases taken
    obtain rfl := correlate_ok taking
    refine ⟨cohorts, ?_, ?_⟩
    · rw [values_ordered]
      exact joinCohorts_ok joined
    · rw [matrix, length_ordered]
      exact (Except.ok.inj done).symm

theorem retention_inTime (inTime : guards.InTime) (checked : checkRetention question guards = .ok ()) :
    retention question guards rows incomplete identity =
      if (ordered (correlated (question.keyOf identity) rows ⟨∅, 0⟩)).entries.length ≤ guards.maxCorrelationKeys then
        dated (((ordered (correlated (question.keyOf identity) rows ⟨∅, 0⟩)).values.foldlM (joinCohort question) ∅).map
          (matrix question identity rows incomplete))
      else Checked.fail (overBudget "correlation keys" s!"more than {guards.maxCorrelationKeys}"
        guards.maxCorrelationKeys) := by
  unfold retention
  rw [checked]
  change ((Checked.lift (correlate guards "correlation keys" (question.keyOf identity) 0 ⟨∅, 0⟩ rows)).bind fun held =>
    (joinCohorts question guards 0 ∅ held.byKey.values).bind fun cohorts => .ok _) = _
  rw [correlate_inTime inTime rows 0 (Nat.zero_le _), length_ordered]
  split_ifs with few
  · change ((joinCohorts question guards 0 ∅ _).bind fun cohorts => .ok _) = _
    rw [joinCohorts_inTime inTime, ← values_ordered]
    cases (ordered (correlated (question.keyOf identity) rows ⟨∅, 0⟩)).values.foldlM (joinCohort question) ∅ with
    | none => rfl
    | some cohorts =>
      rw [Option.map_some, matrix, length_ordered]
      rfl
  · rfl

theorem matrix_perm (perm : rows.Perm rows') (apart : (rows.map EventRow.eventId).Nodup) (cohorts : OrderedMap Nat Cohort) :
    matrix question identity rows incomplete cohorts = matrix question identity rows' incomplete cohorts := by
  rw [matrix, matrix, ordered_perm perm apart, unidentified_perm perm]

theorem retention_perm (inTime : guards.InTime) (perm : rows.Perm rows') (apart : (rows.map EventRow.eventId).Nodup) :
    retention question guards rows incomplete identity = retention question guards rows' incomplete identity := by
  cases checked : checkRetention question guards with
  | error e =>
    unfold retention
    rw [checked]
    rfl
  | ok =>
    rw [retention_inTime inTime checked, retention_inTime inTime checked, ordered_perm perm apart,
      funext (matrix_perm perm apart)]

end

/-! One key more. -/

theorem mem_mapM {α β : Type} {f : α → Option β} {xs : List α} {ys : List β} (mapped : xs.mapM f = some ys) (y : β) :
    y ∈ ys ↔ ∃ x ∈ xs, f x = some y := by
  induction xs generalizing ys with
  | nil =>
    obtain rfl : ys = [] := by simpa using mapped.symm
    simp
  | cons x rest ih =>
    rw [mapM_cons] at mapped
    obtain ⟨here, one, mapped⟩ := Option.bind_eq_some_iff.mp mapped
    obtain ⟨later, behind, same⟩ := Option.bind_eq_some_iff.mp mapped
    cases same
    rw [mem_cons, ih behind, exists_mem_cons_iff, one, Option.some.injEq, eq_comm]

theorem foldl_modify {seen : List Nat} (apart : seen.Nodup) (counts : List Nat) :
    (seen.foldl (fun counts offset => counts.modify offset (· + 1)) counts).length = counts.length ∧
      ∀ k < counts.length, (seen.foldl (fun counts offset => counts.modify offset (· + 1)) counts).getD k 0 =
        counts.getD k 0 + if k ∈ seen then 1 else 0 := by
  induction seen generalizing counts with
  | nil => simp
  | cons offset rest ih =>
    obtain ⟨fresh, apart⟩ := nodup_cons.mp apart
    obtain ⟨length, each⟩ := ih apart (counts.modify offset (· + 1))
    rw [length_modify] at length each
    refine ⟨length, fun k small => ?_⟩
    rw [foldl_cons, each k small]
    by_cases same : offset = k
    · subst same
      simp [getD_eq_getElem?_getD, fresh, small]
    · simp [getD_eq_getElem?_getD, same, Ne.symm same]

def joins (question : RetentionQuestion) (period : Nat) (owned : List EventRow) : Bool :=
  (entered question owned).any fun started => question.index started.occurredAt == some period

/-- Whether a key came back so many periods behind the one it started in. -/
def comesBack (question : RetentionQuestion) (k : Nat) (owned : List EventRow) : Bool :=
  (entered question owned).any fun started => owned.any fun row =>
    decide (started.occurredAt ≤ row.occurredAt) && question.returning row &&
      (question.index row.occurredAt).any fun index =>
        (question.index started.occurredAt).any fun period => index - period == k

structure Counted (question : RetentionQuestion) (done : List (List EventRow)) (cohorts : OrderedMap Nat Cohort) : Prop where
  period : ∀ period cohort, cohorts.get? period = some cohort → cohort.period = period
  size : ∀ period cohort, cohorts.get? period = some cohort → cohort.size = done.countP (joins question period)
  length : ∀ period cohort, cohorts.get? period = some cohort → cohort.returned.length = question.periods
  returned : ∀ period cohort, cohorts.get? period = some cohort → ∀ k < question.periods,
    cohort.returned.getD k 0 = done.countP fun owned => joins question period owned && comesBack question k owned
  joined : ∀ owned ∈ done, ∀ period, joins question period owned = true → (cohorts.get? period).isSome
  dated : ∀ owned ∈ done, ∀ started, entered question owned = some started → (question.index started.occurredAt).isSome

theorem counted_empty : Counted question [] ∅ := ⟨nofun, nofun, nofun, nofun, nofun, nofun⟩

variable {done : List (List EventRow)}

theorem Counted.cohortOf {cohorts : OrderedMap Nat Cohort} {period : Nat} {held : Cohort}
    (counted : Counted question done cohorts) (is : cohortOf question cohorts period = some held) :
    held.period = period ∧ held.size = done.countP (joins question period) ∧ held.returned.length = question.periods ∧
      ∀ k < question.periods, held.returned.getD k 0 =
        done.countP fun owned => joins question period owned && comesBack question k owned := by
  unfold Analysis.cohortOf at is
  cases there : cohorts.get? period with
  | some old =>
    rw [there] at is
    cases is
    exact ⟨counted.period _ _ there, counted.size _ _ there, counted.length _ _ there, counted.returned _ _ there⟩
  | none =>
    rw [there] at is
    obtain ⟨startedAt, -, rfl⟩ := Option.map_eq_some_iff.mp is
    have none : ∀ owned ∈ done, joins question period owned = false := by
      intro owned inside
      by_contra some
      have found := counted.joined owned inside period (Bool.eq_true_of_not_eq_false some)
      rw [there] at found
      cases found
    refine ⟨rfl, (countP_eq_zero.mpr fun owned inside => ?_).symm, length_replicate, fun k small => ?_⟩
    · rw [none owned inside]
      exact Bool.false_ne_true
    · rw [countP_eq_zero.mpr fun owned inside => by simp [none owned inside]]
      simp [getD_eq_getElem?_getD, small]

variable {cohorts next : OrderedMap Nat Cohort} {owned : List EventRow}

/-- What joins a cohort: a key with an initial event that qualifies, once, and once for each period it came back in. -/
theorem joinCohort_some {started : EventRow}
    (begins : entered question owned = some started) (joined : joinCohort question cohorts owned = some next) :
    ∃ period held returned, question.index started.occurredAt = some period ∧ cohortOf question cohorts period = some held ∧
      next = cohorts.insert period { held with size := held.size + 1, returned } ∧
      (held.returned.length = question.periods → returned.length = question.periods ∧ ∀ k < question.periods,
        returned.getD k 0 = held.returned.getD k 0 + if comesBack question k owned then 1 else 0) := by
  unfold joinCohort at joined
  rw [begins] at joined
  obtain ⟨period, index, joined⟩ := Option.bind_eq_some_iff.mp joined
  obtain ⟨held, is, joined⟩ := Option.bind_eq_some_iff.mp joined
  obtain ⟨behind, each, joined⟩ := Option.bind_eq_some_iff.mp joined
  have back (k : Nat) : comesBack question k owned = true ↔ k ∈ behind := by
    rw [mem_mapM each, comesBack, begins, Option.any_some, any_eq_true]
    constructor
    · rintro ⟨row, inside, all⟩
      obtain ⟨kept, apart⟩ := Bool.and_eq_true_iff.mp all
      refine ⟨row, List.mem_filter.mpr ⟨inside, kept⟩, ?_⟩
      cases found : question.index row.occurredAt with
      | none =>
        rw [found] at apart
        cases apart
      | some at' =>
        rw [found, index] at apart
        exact congrArg some (beq_iff_eq.mp apart)
    · rintro ⟨row, inside, apart⟩
      obtain ⟨there, kept⟩ := List.mem_filter.mp inside
      obtain ⟨at', found, rfl⟩ := Option.map_eq_some_iff.mp apart
      refine ⟨row, there, Bool.and_eq_true_iff.mpr ⟨kept, ?_⟩⟩
      rw [found, index]
      exact beq_self_eq_true _
  refine ⟨period, held, _, index, is, (Option.some.inj joined).symm, fun length => ?_⟩
  obtain ⟨same, counts⟩ := foldl_modify (nodup_dedup (behind.filter fun offset => decide (offset < question.periods)))
    held.returned
  refine ⟨same.trans length, fun k small => ?_⟩
  rw [counts k (length ▸ small)]
  simp [back, small]

theorem Counted.pass {cohorts : OrderedMap Nat Cohort}
    (counted : Counted question done cohorts) (nowhere : entered question owned = none) :
    Counted question (done ++ [owned]) cohorts := by
  have apart (period : Nat) : joins question period owned = false := by simp [joins, nowhere]
  refine ⟨counted.period, fun period cohort found => ?_, counted.length, fun period cohort found k small => ?_,
    fun one inside period enters => ?_, fun one inside started is => ?_⟩
  · simp [apart, counted.size period cohort found]
  · rw [counted.returned period cohort found k small]
    simp [apart]
  · rcases mem_append.mp inside with old | new
    · exact counted.joined one old period enters
    · rw [mem_singleton.mp new, apart] at enters
      cases enters
  · rcases mem_append.mp inside with old | new
    · exact counted.dated one old started is
    · rw [mem_singleton.mp new, nowhere] at is
      cases is

theorem Counted.enter
    {started : EventRow} (counted : Counted question done cohorts) (begins : entered question owned = some started)
    (joined : joinCohort question cohorts owned = some next) : Counted question (done ++ [owned]) next := by
  obtain ⟨period, held, returned, index, is, rfl, counts⟩ := joinCohort_some begins joined
  obtain ⟨own, size, length, was⟩ := counted.cohortOf is
  obtain ⟨length', now⟩ := counts length
  have apart (other : Nat) : joins question other owned = true ↔ other = period := by
    rw [joins, begins, Option.any_some, index, beq_iff_eq, Option.some.injEq]
    exact eq_comm
  have mine : joins question period owned = true := (apart period).mpr rfl
  -- a cohort is the one of this key, or an old one that this key is not in
  have cases' {other : Nat} {cohort : Cohort}
      (found : (cohorts.insert period { held with size := held.size + 1, returned }).get? other = some cohort) :
      (other = period ∧ cohort = { held with size := held.size + 1, returned }) ∨
        (other ≠ period ∧ cohorts.get? other = some cohort ∧ joins question other owned = false) := by
    rw [get?_insert] at found
    split_ifs at found with same
    · exact .inl ⟨same, (Option.some.inj found).symm⟩
    · exact .inr ⟨same, found, Bool.eq_false_iff.mpr fun enters => same ((apart other).mp enters)⟩
  refine ⟨fun other cohort found => ?_, fun other cohort found => ?_, fun other cohort found => ?_,
    fun other cohort found k small => ?_, fun one inside other enters => ?_, fun one inside first begins' => ?_⟩
  · rcases cases' found with ⟨rfl, rfl⟩ | ⟨-, old, -⟩
    · exact own
    · exact counted.period other cohort old
  · rcases cases' found with ⟨rfl, rfl⟩ | ⟨-, old, not⟩
    · simp [mine, size]
    · simp [not, counted.size other cohort old]
  · rcases cases' found with ⟨rfl, rfl⟩ | ⟨-, old, -⟩
    · exact length'
    · exact counted.length other cohort old
  · rcases cases' found with ⟨rfl, rfl⟩ | ⟨-, old, not⟩
    · rw [now k small, was k small]
      simp [countP_append, countP_singleton, mine]
    · rw [counted.returned other cohort old k small]
      simp [not]
  · rw [get?_insert]
    split_ifs with same
    · rfl
    · rcases mem_append.mp inside with old | new
      · exact counted.joined one old other enters
      · rw [mem_singleton.mp new] at enters
        exact absurd ((apart other).mp enters) same
  · rcases mem_append.mp inside with old | new
    · exact counted.dated one old first begins'
    · rw [mem_singleton.mp new, begins] at begins'
      cases begins'
      rw [index]
      rfl

theorem Counted.join
    (counted : Counted question done cohorts) (joined : joinCohort question cohorts owned = some next) :
    Counted question (done ++ [owned]) next := by
  cases begins : entered question owned with
  | none =>
    unfold joinCohort at joined
    rw [begins] at joined
    cases joined
    exact counted.pass begins
  | some started => exact counted.enter begins joined

theorem Counted.foldlM {owned done : List (List EventRow)}
    (counted : Counted question done cohorts) (joined : owned.foldlM (joinCohort question) cohorts = some next) :
    Counted question (done ++ owned) next := by
  induction owned generalizing done cohorts with
  | nil =>
    obtain rfl : cohorts = next := by simpa using joined
    simpa using counted
  | cons one rest ih =>
    rw [foldlM_cons] at joined
    obtain ⟨here, first, joined⟩ := Option.bind_eq_some_iff.mp joined
    have all := ih (counted.join first) joined
    rwa [append_assoc, singleton_append] at all

/-- A matrix counts people: each key whose initial event qualifies is in one cohort, a cohort is as large as its keys are
many, and so many of these came back in each period, whatever the order of the rows. -/
theorem retention_counts {rows : List EventRow} (apart : (rows.map EventRow.eventId).Nodup) (incomplete : Bool)
    (identity : Identity) (question : RetentionQuestion) : (∀ rows', rows.Perm rows' →
      (∀ guards : Guards, guards.InTime → retention question guards rows incomplete identity =
        retention question guards rows' incomplete identity) ∧
      ∀ guards guards' result result', retention question guards rows incomplete identity = .ok result →
        retention question guards' rows' incomplete identity = .ok result' → result = result') ∧
    ∀ guards result, retention question guards rows incomplete identity = .ok result →
      (∀ key, ∀ cohort ∈ result.cohorts, ∀ other ∈ result.cohorts,
        joins question cohort.period (rowsOf (question.keyOf identity) rows key) = true →
        joins question other.period (rowsOf (question.keyOf identity) rows key) = true → cohort = other) ∧
      (∀ key, (entered question (rowsOf (question.keyOf identity) rows key)).isSome →
        ∃ cohort ∈ result.cohorts, joins question cohort.period (rowsOf (question.keyOf identity) rows key) = true) ∧
      ∀ cohort ∈ result.cohorts, cohort.size = ((keysOf (question.keyOf identity) rows).filter fun key =>
          joins question cohort.period (rowsOf (question.keyOf identity) rows key) = true).card ∧
        cohort.returned.length = question.periods ∧ ∀ k < question.periods, cohort.returned.getD k 0 ≤ cohort.size ∧
          cohort.returned.getD k 0 = ((keysOf (question.keyOf identity) rows).filter fun key =>
            (joins question cohort.period (rowsOf (question.keyOf identity) rows key) &&
              comesBack question k (rowsOf (question.keyOf identity) rows key)) = true).card := by
  refine ⟨fun rows' perm => ⟨fun guards inTime => retention_perm inTime perm apart,
    fun guards guards' result result' one two => ?_⟩, fun guards result done => ?_⟩
  · obtain ⟨cohorts, joined, rfl⟩ := retention_ok one
    obtain ⟨cohorts', joined', rfl⟩ := retention_ok two
    rw [← ordered_perm perm apart, joined] at joined'
    rw [Option.some.inj joined', matrix_perm perm apart]
  · obtain ⟨cohorts, joined, rfl⟩ := retention_ok done
    have counted := counted_empty.foldlM joined
    rw [List.nil_append] at counted
    refine ⟨fun key cohort inside other also enters enters' => ?_, fun key some => ?_, fun cohort inside => ?_⟩
    · obtain ⟨period, held⟩ := mem_values_iff.mp inside
      obtain ⟨period', held'⟩ := mem_values_iff.mp also
      have same : cohort.period = other.period := by
        obtain ⟨started, is, index⟩ := (Option.any_eq_true _ _).mp enters
        obtain ⟨started', is', index'⟩ := (Option.any_eq_true _ _).mp enters'
        obtain rfl := Option.some.inj (is.symm.trans is')
        exact Option.some.inj ((beq_iff_eq.mp index).symm.trans (beq_iff_eq.mp index'))
      rw [counted.period _ _ held, counted.period _ _ held'] at same
      subst same
      exact Option.some.inj (held.symm.trans held')
    · obtain ⟨started, is⟩ := Option.isSome_iff_exists.mp some
      have listed : key ∈ keysOf (question.keyOf identity) rows := by
        by_contra stranger
        have none : rowsOf (question.keyOf identity) rows key = [] := by
          rw [rowsOf, List.filter_eq_nil_iff.mpr fun row inside own => stranger (List.mem_toFinset.mpr
            (List.mem_filterMap.mpr ⟨row, inside, of_decide_eq_true own⟩))]
          rfl
        rw [none] at is
        cases is
      have inside : rowsOf (question.keyOf identity) rows key ∈
          (ordered (correlated (question.keyOf identity) rows ⟨∅, 0⟩)).values :=
        mem_values_iff.mpr ⟨key, (get?_ordered _ rows key).trans (if_pos listed)⟩
      obtain ⟨period, index⟩ := Option.isSome_iff_exists.mp (counted.dated _ inside started is)
      have enters : joins question period (rowsOf (question.keyOf identity) rows key) = true := by
        rw [joins, is, Option.any_some, index]
        exact beq_self_eq_true _
      obtain ⟨cohort, held⟩ := Option.isSome_iff_exists.mp (counted.joined _ inside period enters)
      exact ⟨cohort, mem_values_iff.mpr ⟨period, held⟩, (counted.period _ _ held).symm ▸ enters⟩
    · obtain ⟨period, held⟩ := mem_values_iff.mp inside
      obtain rfl := counted.period _ _ held
      have size := counted.size _ _ held
      refine ⟨size.trans (countP_ordered rows _), counted.length _ _ held, fun k small => ⟨?_, ?_⟩⟩
      · rw [counted.returned _ _ held k small, size]
        exact List.countP_mono_left fun owned _ both => (Bool.and_eq_true_iff.mp both).1
      · rw [counted.returned _ _ held k small]
        exact countP_ordered rows _

def utc : Calendar.Zone where
  offset _ := 0
  fromLocal l := .single l
  shown l t := by simp [Calendar.LocalResult.candidates, eq_comm]
  ordered _ _ _ := nofun
  near _ := by decide

/-- How many sign up and how many are back to visit, by the day, the tenth of the epoch being day zero. -/
def visitsByDay : RetentionQuestion :=
  ⟨fun row => row.name == "sign up", fun row => row.name == "visit", .day, utc, 3, false, .session, .eventTime, 864000000⟩

/-- A session that signs up at noon of one day and visits at noon of another. -/
def signUpAndVisit (first second : Int) : List EventRow :=
  [{ EventRow.new 1 "event" "sign up" (first * 86400000 + 43200000) with sessionId := some "s" },
    { EventRow.new 2 "event" "visit" (second * 86400000 + 43200000) with sessionId := some "s" }]

def visits (rows : List EventRow) : Checked QueryError RetentionResult :=
  retention visitsByDay generous rows false (.start 1)

theorem retention_counts_visits : visits (signUpAndVisit 12 13) = visits (signUpAndVisit 12 13).reverse :=
  ((retention_counts (show ((signUpAndVisit 12 13).map EventRow.eventId).Nodup by decide) false (.start 1) visitsByDay).1 _
    (List.reverse_perm _).symm).1 generous fun _ => ⟨rfl, rfl⟩

/-- A visit two days behind a sign-up, both before the epoch, is of the day of the sign-up. -/
theorem visit_before_epoch :
    (visits (signUpAndVisit 3 5)).map (fun result => result.cohorts.map fun cohort => (cohort.period, cohort.returned)) =
        .ok [(0, [1, 0, 0])] ∧
      utc.periodsBetween (3 * 86400000 + 43200000) (5 * 86400000 + 43200000) .day = some 2 := by
  decide +kernel

end TallyOwl.Analysis
