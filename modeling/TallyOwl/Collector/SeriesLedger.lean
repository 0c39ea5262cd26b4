import TallyOwl.Collector.Intake
import TallyOwl.Lib.KeyTotals
import TallyOwl.Lib.Runs
import TallyOwl.Store.Locator

/-! The ledger of series (`series.rs`): what each series of each metric of each project costs, counted where
a point is admitted and where an idle series goes. A count of bytes is a `u64`, and a reading of the clock an `i64`.
Nothing is asked of the id of a project but that ids are told apart. -/
namespace TallyOwl.Collector
open Lib Wire
open Locate (wrapI64)

structure SeriesBudget where
  maxSeriesForEachMetric : Nat
  maxBytesForEachMetric : Nat
  maxLabels : Nat
  maxLabelValueBytes : Nat
  maxLabelBytes : Nat
  idleExpiryMs : Int

structure Pressure where
  seriesRefused : Nat
  bytesRefused : Nat
  labelsRefused : Nat
  namesRefused : Nat
  expiredSeries : Nat
  deriving DecidableEq

structure SeriesEntry where
  lastSeenMs : Int
  bytes : Nat

structure MetricState where
  series : OrderedMap String SeriesEntry
  bytes : Nat

structure SeriesLedger where
  budget : SeriesBudget
  maxMetricNames : Nat

variable {P : Type} [LinearOrder P]

structure LedgerState (P : Type) [LinearOrder P] where
  metrics : OrderedMap (P ×ₗ String) MetricState
  names : OrderedMap P Nat
  activeSeries : Nat
  activeBytes : Nat
  lastSweepMs : Int
  pressure : Pressure

def LedgerState.default : LedgerState P := ⟨∅, ∅, 0, 0, 0, ⟨0, 0, 0, 0, 0⟩⟩

/-- `saturating_add` of a `u64`. -/
def saturatingAdd (a b : Nat) : Nat := min (a + b) (2 ^ 64 - 1)

def MetricState.idle (metric : MetricState) (horizon : Int) : List SeriesEntry :=
  (metric.series.filter fun _ entry => !decide (horizon < entry.lastSeenMs)).values

def MetricState.live (metric : MetricState) (horizon : Int) : OrderedMap String SeriesEntry :=
  metric.series.filter fun _ entry => decide (horizon < entry.lastSeenMs)

def freed (expired : List SeriesEntry) : Nat := expired.foldl (fun sum entry => saturatingAdd sum entry.bytes) 0

def MetricState.retain (metric : MetricState) (horizon : Int) : MetricState where
  series := metric.live horizon
  bytes := (metric.idle horizon).foldl (fun bytes entry => bytes - entry.bytes) metric.bytes

def release (names : OrderedMap P Nat) (project : P) : OrderedMap P Nat :=
  match names.get? project with
  | none => names
  | some held => if held - 1 = 0 then names.erase project else names.insert project (held - 1)

/-- Remove every series that has been idle for the whole idle period, and every metric that then holds none. -/
def LedgerState.sweep (state : LedgerState P) (horizon : Int) : LedgerState P :=
  let expired := state.metrics.values.flatMap fun metric => metric.idle horizon
  let retained := state.metrics.mapValues fun _ metric => metric.retain horizon
  let gone := retained.filter fun _ metric => metric.series.entries.isEmpty
  { state with
    metrics := retained.filter fun _ metric => !metric.series.entries.isEmpty
    names := (gone.entries.map fun x => (ofLex x.1).1).foldl release state.names
    activeSeries := state.activeSeries - expired.length
    activeBytes := state.activeBytes - freed expired
    pressure := { state.pressure with expiredSeries := state.pressure.expiredSeries + expired.length } }

def LedgerState.expire (state : LedgerState P) (key : P ×ₗ String) (metric : MetricState) (horizon : Int) : LedgerState P :=
  let expired := metric.idle horizon
  { state with
    metrics := state.metrics.insert key ⟨metric.live horizon, metric.bytes - freed expired⟩
    activeSeries := state.activeSeries - expired.length
    activeBytes := state.activeBytes - freed expired
    pressure := { state.pressure with expiredSeries := state.pressure.expiredSeries + expired.length } }

def LedgerState.renew (state : LedgerState P) (key : P ×ₗ String) (metric : MetricState) (seriesKey : String)
    (entry : SeriesEntry) (size : Nat) (nowMs : Int) : LedgerState P :=
  { state with
    metrics := state.metrics.insert key
      ⟨metric.series.insert seriesKey ⟨nowMs, size⟩, saturatingAdd (metric.bytes - entry.bytes) size⟩
    activeBytes := saturatingAdd (state.activeBytes - entry.bytes) size }

def LedgerState.enter (state : LedgerState P) (key : P ×ₗ String) (seriesKey : String) (size : Nat) (nowMs : Int) :
    LedgerState P :=
  let metric := (state.metrics.get? key).getD ⟨∅, 0⟩
  let project := (ofLex key).1
  { state with
    metrics := state.metrics.insert key
      ⟨metric.series.insert seriesKey ⟨nowMs, size⟩, saturatingAdd metric.bytes size⟩
    names := if (state.metrics.get? key).isSome then state.names
      else state.names.insert project ((state.names.get? project).getD 0 + 1)
    activeSeries := state.activeSeries + 1
    activeBytes := saturatingAdd state.activeBytes size }

namespace SeriesLedger
variable (text : UInt64 → String) (ledger : SeriesLedger)

def new (budget : SeriesBudget) : SeriesLedger := ⟨budget, 10000⟩

def withMaxMetricNames (names : Nat) : SeriesLedger := { ledger with maxMetricNames := max names 1 }

def sweepIntervalMs : Int := max (ledger.budget.idleExpiryMs.tdiv 4) 1000

def horizon (nowMs : Int) : Int := wrapI64 (nowMs - ledger.budget.idleExpiryMs)

def sweepIfDue (state : LedgerState P) (nowMs : Int) : LedgerState P :=
  if wrapI64 (nowMs - state.lastSweepMs) < ledger.sweepIntervalMs then state
  else { state with lastSweepMs := nowMs }.sweep (ledger.horizon nowMs)

def checkLabels (labels : List Property) : Except TallyOwlError Unit := do
  if ledger.budget.maxLabels < labels.length then
    throw (overLimit "Metric series" s!"{labels.length} labels" s!"{ledger.budget.maxLabels} labels"
      "Send fewer labels on this metric, or raise `metrics.maxLabels`.")
  let labelBytes ← labels.foldlM (fun labelBytes label =>
    let value := labelText text label
    if ledger.budget.maxLabelValueBytes < value.utf8ByteSize then
      throw (overLimit "Metric label value" s!"{value.utf8ByteSize} bytes" s!"{ledger.budget.maxLabelValueBytes} bytes"
        "Send a shorter label value, or raise `metrics.maxLabelValueBytes`.")
    else pure (labelBytes + (label.key.utf8ByteSize + value.utf8ByteSize))) 0
  if ledger.budget.maxLabelBytes < labelBytes then
    throw (overLimit "Metric series labels" s!"{labelBytes} bytes" s!"{ledger.budget.maxLabelBytes} bytes"
      "Send fewer or shorter labels, or raise `metrics.maxLabelBytes`.")

def namesRefusal (held : Nat) : TallyOwlError :=
  overLimit "This project" s!"{held + 1} metric names" s!"{ledger.maxMetricNames} metric names"
    "Put the value that changes in a label and keep the metric name fixed, or raise `metrics.maxMetricNamesForEachProject`."

def seriesRefusal (metricName : String) (held : Nat) : TallyOwlError :=
  overLimit s!"The metric `{metricName}`" s!"{held + 1} active series"
    s!"{ledger.budget.maxSeriesForEachMetric} active series"
    "Remove a label that takes many values, or raise `metrics.maxSeriesForEachMetric` for this installation."

def bytesRefusal (metricName observed : String) : TallyOwlError :=
  overLimit s!"The metric `{metricName}`" observed s!"{ledger.budget.maxBytesForEachMetric} bytes"
    "Send fewer or shorter labels on this metric, or raise `metrics.maxBytesForEachMetric`."

/-- A budget that is about to refuse lets the idle series of this one metric go first. -/
def makeRoom (state : LedgerState P) (key : P ×ₗ String) (metric : MetricState) (size : Nat) (nowMs : Int) : LedgerState P :=
  if ledger.budget.maxSeriesForEachMetric ≤ metric.series.entries.length ∨
      ledger.budget.maxBytesForEachMetric < saturatingAdd metric.bytes size then
    state.expire key metric (ledger.horizon nowMs)
  else state

/-- Charge a point to its series, once its labels are allowed and the sweep ran. -/
def charge (state : LedgerState P) (key : P ×ₗ String) (seriesKey : String) (size : Nat) (nowMs : Int) :
    LedgerState P × Except TallyOwlError Unit :=
  match state.metrics.get? key with
  | none =>
      let held := (state.names.get? (ofLex key).1).getD 0
      if ledger.maxMetricNames ≤ held then
        ({ state with pressure := { state.pressure with namesRefused := state.pressure.namesRefused + 1 } },
          .error (ledger.namesRefusal held))
      else if ledger.budget.maxBytesForEachMetric < size then
        ({ state with pressure := { state.pressure with bytesRefused := state.pressure.bytesRefused + 1 } },
          .error (ledger.bytesRefusal (ofLex key).2 s!"{size} bytes in one point"))
      else (state.enter key seriesKey size nowMs, .ok ())
  | some metric =>
      match metric.series.get? seriesKey with
      | some entry => (state.renew key metric seriesKey entry size nowMs, .ok ())
      | none =>
          let state := ledger.makeRoom state key metric size nowMs
          let metric := (state.metrics.get? key).getD metric
          if ledger.budget.maxSeriesForEachMetric ≤ metric.series.entries.length then
            ({ state with pressure := { state.pressure with seriesRefused := state.pressure.seriesRefused + 1 } },
              .error (ledger.seriesRefusal (ofLex key).2 metric.series.entries.length))
          else if ledger.budget.maxBytesForEachMetric < saturatingAdd metric.bytes size then
            let whole := (metric.bytes + size) % 2 ^ 64
            ({ state with pressure := { state.pressure with bytesRefused := state.pressure.bytesRefused + 1 } },
              .error (ledger.bytesRefusal (ofLex key).2 s!"{whole} bytes in one reading of its active series"))
          else (state.enter key seriesKey size nowMs, .ok ())

def admitPoint (state : LedgerState P) (projectId : P) (point : MetricPointPayload) (size : Nat) (nowMs : Int) :
    LedgerState P × Except TallyOwlError Unit :=
  match ledger.checkLabels text point.labels with
  | .error e =>
      ({ state with pressure := { state.pressure with labelsRefused := state.pressure.labelsRefused + 1 } }, .error e)
  | .ok () =>
      ledger.charge (ledger.sweepIfDue state nowMs) (toLex (projectId, point.metricName)) (seriesKey text point) size nowMs

end SeriesLedger

end TallyOwl.Collector
