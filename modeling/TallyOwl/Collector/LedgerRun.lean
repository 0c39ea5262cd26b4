import TallyOwl.Collector.SeriesBooks

/-! Any calls of the ledger of series, one behind the other. -/
namespace TallyOwl.Collector
open Lib OrderedMap Wire

variable {P : Type} [LinearOrder P]

inductive LedgerCall (P : Type) where
  | admitPoint (projectId : P) (point : MetricPointPayload) (size : Nat) (nowMs : Int)
  | sweepIfDue (nowMs : Int)

namespace SeriesLedger
variable (text : UInt64 → String) (ledger : SeriesLedger)

def step (state : LedgerState P) : LedgerCall P → Option (LedgerState P)
  | .admitPoint projectId point size nowMs => some (ledger.admitPoint text state projectId point size nowMs).1
  | .sweepIfDue nowMs => some (ledger.sweepIfDue state nowMs)

/-- A point that is admitted leaves the bytes of all series within their word, and one that is refused for its bytes
leaves a series in its metric. -/
def Charges (state : LedgerState P) (key : P ×ₗ String) (seriesKey : String) (size : Nat) (nowMs : Int) : Prop :=
  match state.metrics.get? key with
  | none => (state.names.get? (ofLex key).1).getD 0 < ledger.maxMetricNames →
      size ≤ ledger.budget.maxBytesForEachMetric → state.activeBytes + size < 2 ^ 64
  | some metric =>
      match metric.series.get? seriesKey with
      | some entry => state.activeBytes - entry.bytes + size < 2 ^ 64
      | none =>
          let state := ledger.makeRoom state key metric size nowMs
          let metric := (state.metrics.get? key).getD metric
          metric.series.entries.length < ledger.budget.maxSeriesForEachMetric →
            (saturatingAdd metric.bytes size ≤ ledger.budget.maxBytesForEachMetric →
              state.activeBytes + size < 2 ^ 64) ∧
            (ledger.budget.maxBytesForEachMetric < saturatingAdd metric.bytes size → metric.series.entries ≠ [])

def Allowed (state : LedgerState P) : LedgerCall P → Prop
  | .admitPoint projectId point size nowMs => ledger.checkLabels text point.labels = .ok () →
      ledger.Charges (ledger.sweepIfDue state nowMs) (toLex (projectId, point.metricName)) (seriesKey text point) size nowMs
  | .sweepIfDue _ => True

variable {text ledger}
variable {state : LedgerState P} {key : P ×ₗ String} {metric : MetricState} {seriesKey : String} {size : Nat} {nowMs : Int}

open LedgerState

theorem books_sweepIfDue (books : state.Books ledger) : (ledger.sweepIfDue state nowMs).Books ledger := by
  unfold sweepIfDue
  split_ifs
  · exact books
  · have stamped : LedgerState.Books ledger { state with lastSweepMs := nowMs } :=
      books.besides _ _
    exact stamped.sweep _

theorem occupied_sweepIfDue (occupied : state.Occupied) : (ledger.sweepIfDue state nowMs).Occupied := by
  unfold sweepIfDue
  split_ifs
  · exact occupied
  · exact occupied_sweep _ _

theorem onlyExpired_sweepIfDue (state : LedgerState P) :
    OnlyExpired (ledger.horizon nowMs) state (ledger.sweepIfDue state nowMs) := by
  unfold sweepIfDue
  split_ifs
  · exact .refl _ _
  · have swept := onlyExpired_sweep { state with lastSweepMs := nowMs } (ledger.horizon nowMs)
    exact ⟨swept.1, swept.2, swept.3⟩

theorem books_makeRoom (books : state.Books ledger) (held : state.metrics.get? key = some metric) (size : Nat) (nowMs : Int) :
    (ledger.makeRoom state key metric size nowMs).Books ledger := by
  unfold makeRoom
  split_ifs
  · exact books.expire held _
  · exact books

theorem onlyExpired_makeRoom (held : state.metrics.get? key = some metric) :
    OnlyExpired (ledger.horizon nowMs) state (ledger.makeRoom state key metric size nowMs) := by
  unfold makeRoom
  split_ifs
  · exact onlyExpired_expire held _
  · exact .refl _ _

theorem makeRoom_spec (ledger : SeriesLedger) (size : Nat) (nowMs : Int) (held : state.metrics.get? key = some metric)
    (unknown : metric.series.get? seriesKey = none) :
    (∃ left, (ledger.makeRoom state key metric size nowMs).metrics.get? key = some left ∧
      left.series.get? seriesKey = none) ∧
    ∀ other, other ≠ key → (ledger.makeRoom state key metric size nowMs).metrics.get? other = state.metrics.get? other := by
  unfold makeRoom
  split_ifs
  · refine ⟨⟨⟨metric.live _, _⟩, (get?_insert _ _ _ _).trans (if_pos rfl), ?_⟩, fun other different =>
      (get?_insert _ _ _ _).trans (if_neg different)⟩
    refine Option.eq_none_iff_forall_ne_some.mpr fun entry known => ?_
    have before := ((get?_live metric _ seriesKey entry).mp known).1
    rw [unknown] at before
    cases before
  · exact ⟨⟨metric, held, unknown⟩, fun _ _ => rfl⟩

theorem books_charge (limit : 1 ≤ ledger.budget.maxSeriesForEachMetric) (books : state.Books ledger)
    (occupied : state.Occupied) (allowed : ledger.Charges state key seriesKey size nowMs) :
    (ledger.charge state key seriesKey size nowMs).1.Books ledger ∧
      (ledger.charge state key seriesKey size nowMs).1.Occupied := by
  unfold charge
  unfold Charges at allowed
  cases held : state.metrics.get? key with
  | none =>
    simp only [held] at allowed ⊢
    split_ifs with names bytes
    · exact ⟨books.besides _ _, occupied⟩
    · exact ⟨books.besides _ _, occupied⟩
    · exact ⟨books.enter_new held limit (not_le.mp names) (allowed (not_le.mp names) (not_lt.mp bytes)),
        enter_occupied fun other found _ there => occupied other found there⟩
  | some metric =>
    simp only [held] at allowed ⊢
    cases known : metric.series.get? seriesKey with
    | some entry =>
      simp only [known] at allowed ⊢
      exact ⟨books.renew held known allowed, occupied.renew known⟩
    | none =>
      simp only [known] at allowed ⊢
      obtain ⟨⟨left, there, unknown⟩, others⟩ := makeRoom_spec ledger size nowMs held known
      have room := books_makeRoom books held size nowMs
      rw [there, Option.getD_some] at allowed ⊢
      have besides (some : left.series.entries ≠ []) :
          (ledger.makeRoom state key metric size nowMs).Occupied := by
        intro other found inside
        by_cases same : other = key
        · subst same
          obtain rfl := Option.some.inj (there.symm.trans inside)
          exact some
        · exact occupied other found (others other same ▸ inside)
      split_ifs with series bytes
      · exact ⟨room.besides _ _,
          besides (List.ne_nil_of_length_pos (limit.trans series))⟩
      · exact ⟨room.besides _ _,
          besides ((allowed (not_le.mp series)).2 bytes)⟩
      · exact ⟨room.enter_held there unknown (not_le.mp series) ((allowed (not_le.mp series)).1 (not_lt.mp bytes)),
          enter_occupied fun other found different inside => occupied other found (others other different ▸ inside)⟩

theorem onlyExpired_charge {error : TallyOwlError} (refused : (ledger.charge state key seriesKey size nowMs).2 = .error error) :
    OnlyExpired (ledger.horizon nowMs) state (ledger.charge state key seriesKey size nowMs).1 := by
  unfold charge at refused ⊢
  cases held : state.metrics.get? key with
  | none =>
    simp only [held] at refused ⊢
    split_ifs at refused ⊢
    · exact (OnlyExpired.refl _ state).besides _
    · exact (OnlyExpired.refl _ state).besides _
  | some metric =>
    simp only [held] at refused ⊢
    cases known : metric.series.get? seriesKey with
    | some entry =>
      simp only [known] at refused
      cases refused
    | none =>
      simp only [known] at refused ⊢
      have room : OnlyExpired (ledger.horizon nowMs) state (ledger.makeRoom state key metric size nowMs) :=
        onlyExpired_makeRoom held
      split_ifs at refused ⊢
      · exact room.besides _
      · exact room.besides _

theorem books_step (limit : 1 ≤ ledger.budget.maxSeriesForEachMetric) {next : LedgerState P} {call : LedgerCall P}
    (kept : state.Books ledger ∧ state.Occupied) (allowed : ledger.Allowed text state call)
    (stepped : ledger.step text state call = some next) : next.Books ledger ∧ next.Occupied := by
  obtain ⟨books, occupied⟩ := kept
  cases call with
  | sweepIfDue nowMs =>
    cases stepped
    exact ⟨books_sweepIfDue books, occupied_sweepIfDue occupied⟩
  | admitPoint projectId point size nowMs =>
    cases stepped
    unfold admitPoint
    cases checked : ledger.checkLabels text point.labels with
    | error e => exact ⟨books.besides _ _, occupied⟩
    | ok => exact books_charge limit (books_sweepIfDue books) (occupied_sweepIfDue occupied) (allowed checked)

theorem onlyExpired_admitPoint {projectId : P} {point : MetricPointPayload} {error : TallyOwlError}
    (refused : (ledger.admitPoint text state projectId point size nowMs).2 = .error error) :
    OnlyExpired (ledger.horizon nowMs) state (ledger.admitPoint text state projectId point size nowMs).1 := by
  unfold admitPoint at refused ⊢
  cases checked : ledger.checkLabels text point.labels with
  | error e => exact (OnlyExpired.refl _ state).besides _
  | ok =>
    simp only [checked] at refused ⊢
    exact (onlyExpired_sweepIfDue state).trans (onlyExpired_charge refused)

theorem books_default : (LedgerState.default : LedgerState P).Books ledger ∧ (LedgerState.default : LedgerState P).Occupied :=
  ⟨⟨rfl, rfl, nofun, fun _ => rfl, nofun, fun _ => Nat.zero_le _, Nat.two_pow_pos 64⟩, nofun⟩

/-- Where no admitted point takes the bytes of all series out of their word, and none is refused for its bytes behind
the last series of its metric, the ledger counts what it holds, and a refused point lets idle series go at most. -/
theorem ledger_counts (limit : 1 ≤ ledger.budget.maxSeriesForEachMetric)
    (run : Reach (ledger.step text) (ledger.Allowed text) LedgerState.default state) :
    state.Books ledger ∧ state.Occupied ∧
    ∀ projectId point size nowMs error, (ledger.admitPoint text state projectId point size nowMs).2 = .error error →
      OnlyExpired (ledger.horizon nowMs) state (ledger.admitPoint text state projectId point size nowMs).1 := by
  obtain ⟨books, occupied⟩ := run.invariant (fun state => state.Books ledger ∧ state.Occupied) books_default
    fun _ _ _ kept allowed stepped => books_step limit kept allowed stepped
  exact ⟨books, occupied, fun _ _ _ _ _ refused => onlyExpired_admitPoint refused⟩

/-- A ledger of 64 bytes for each metric, whose series are idle behind four seconds. -/
def small : SeriesLedger := new ⟨5, 64, 5, 100, 100, 4000⟩

def unlabelled (kind : MetricKind) : MetricPointPayload where
  metricName := "requests_total"
  metricKind := kind
  unit := none
  description := none
  monotonic := false
  temporality := .delta
  startAt := 0
  endAt := 0
  labels := []
  numberValue := none
  histogramValue := none
  exemplarTraceId := none

theorem ledger_counts_one :
    (small.admitPoint (fun _ => "") (LedgerState.default : LedgerState ℕ) 1 (unlabelled .counter) 10 0).1.activeBytes =
      (small.admitPoint (fun _ => "") (LedgerState.default : LedgerState ℕ) 1 (unlabelled .counter) 10 0).1.bytesHeld := by
  have run : Reach (small.step fun _ => "") (small.Allowed fun _ => "") (LedgerState.default : LedgerState ℕ)
      (small.admitPoint (fun _ => "") LedgerState.default 1 (unlabelled .counter) 10 0).1 :=
    .step (.admitPoint 1 (unlabelled .counter) 10 0) .start (fun _ _ _ => by decide) rfl
  exact (ledger_counts (by decide) run).1.activeBytes

/-- The series of a metric is idle and not swept yet. A point of another series is too large, so the metric that made
room for it is held without a series. -/
theorem refused_point_leaves_empty_metric : ∃ state : LedgerState ℕ,
    exec (small.step fun _ => "") LedgerState.default [.admitPoint 1 (unlabelled .counter) 10 0, .sweepIfDue 3999,
      .admitPoint 1 (unlabelled .gauge) 100 4000] = some state ∧ ¬state.Occupied := by
  have ran : ((exec (small.step fun _ => "") (LedgerState.default : LedgerState ℕ)
      [.admitPoint 1 (unlabelled .counter) 10 0, .sweepIfDue 3999, .admitPoint 1 (unlabelled .gauge) 100 4000]).any
        fun state => state.metrics.values.any fun metric => metric.series.entries.isEmpty) = true := by
    decide +kernel
  obtain ⟨state, last, found⟩ := (Option.any_eq_true _ _).mp ran
  obtain ⟨metric, inside, empty⟩ := List.any_eq_true.mp found
  obtain ⟨key, held⟩ := mem_values_iff.mp inside
  exact ⟨state, last, fun occupied => occupied key metric held (List.isEmpty_iff.mp empty)⟩

end SeriesLedger
end TallyOwl.Collector
