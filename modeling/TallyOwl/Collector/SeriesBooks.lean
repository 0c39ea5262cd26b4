import TallyOwl.Collector.SeriesLedger
import TallyOwl.Lib.Buckets

/-! The running totals of the ledger of series are what its series add up to, whichever points it admits and refuses
and whichever series it lets go. -/
namespace TallyOwl.Collector
open Lib OrderedMap Wire

variable {P : Type} [LinearOrder P]

/-! What one metric holds. -/

def MetricState.heldBytes (metric : MetricState) : Nat := total (fun _ entry => entry.bytes) metric.series

theorem foldl_saturatingAdd (expired : List SeriesEntry) (sum : Nat) :
    expired.foldl (fun sum entry => saturatingAdd sum entry.bytes) (min sum (2 ^ 64 - 1)) =
      min (sum + (expired.map SeriesEntry.bytes).sum) (2 ^ 64 - 1) := by
  induction expired generalizing sum with
  | nil => rfl
  | cons entry rest ih =>
    have next : saturatingAdd (min sum (2 ^ 64 - 1)) entry.bytes = min (sum + entry.bytes) (2 ^ 64 - 1) := by
      unfold saturatingAdd
      omega
    rw [List.foldl_cons, next, ih, List.map_cons, List.sum_cons, Nat.add_assoc]

theorem freed_eq (expired : List SeriesEntry) :
    freed expired = min (expired.map SeriesEntry.bytes).sum (2 ^ 64 - 1) := by
  have whole := foldl_saturatingAdd expired 0
  rwa [Nat.zero_min, Nat.zero_add] at whole

theorem foldl_sub (expired : List SeriesEntry) (bytes : Nat) :
    expired.foldl (fun bytes entry => bytes - entry.bytes) bytes = bytes - (expired.map SeriesEntry.bytes).sum := by
  induction expired generalizing bytes with
  | nil => rfl
  | cons entry rest ih => rw [List.foldl_cons, ih, List.map_cons, List.sum_cons, Nat.sub_sub]

namespace MetricState

theorem bytes_live_add_idle (metric : MetricState) (horizon : Int) :
    total (fun _ entry => entry.bytes) (metric.live horizon) + ((metric.idle horizon).map SeriesEntry.bytes).sum =
      metric.heldBytes := by
  have whole := total_filter_add (fun _ entry => SeriesEntry.bytes entry) metric.series
    fun _ entry => decide (horizon < entry.lastSeenMs)
  rw [heldBytes, ← whole]
  simp [live, idle, values, total, Function.comp_def]

theorem length_live_add_idle (metric : MetricState) (horizon : Int) :
    (metric.live horizon).entries.length + (metric.idle horizon).length = metric.series.entries.length := by
  rw [live, idle, values, List.length_map]
  exact (List.length_eq_length_filter_add _).symm

theorem length_live_le (metric : MetricState) (horizon : Int) :
    (metric.live horizon).entries.length ≤ metric.series.entries.length :=
  metric.length_live_add_idle horizon ▸ Nat.le_add_right _ _

theorem retain_bytes {metric : MetricState} (right : metric.bytes = metric.heldBytes) (horizon : Int) :
    (metric.retain horizon).bytes = (metric.retain horizon).heldBytes := by
  have parts := metric.bytes_live_add_idle horizon
  change List.foldl _ metric.bytes (metric.idle horizon) = total (fun _ entry => entry.bytes) (metric.live horizon)
  rw [foldl_sub, right]
  omega

end MetricState

/-! What the ledger holds. -/

namespace LedgerState

def seriesHeld (state : LedgerState P) : Nat := total (fun _ metric => metric.series.entries.length) state.metrics

def bytesHeld (state : LedgerState P) : Nat := total (fun _ metric => metric.heldBytes) state.metrics

def metricsOf (state : LedgerState P) (project : P) : Nat :=
  total (fun key _ => if (ofLex key).1 = project then 1 else 0) state.metrics

/-- The totals of the ledger are those of its series, and no limit on what is held is passed. -/
structure Books (ledger : SeriesLedger) (state : LedgerState P) : Prop where
  activeSeries : state.activeSeries = state.seriesHeld
  activeBytes : state.activeBytes = state.bytesHeld
  bytes : ∀ key metric, state.metrics.get? key = some metric → metric.bytes = metric.heldBytes
  names : ∀ project, (state.names.get? project).getD 0 = state.metricsOf project
  seriesLimit : ∀ key metric, state.metrics.get? key = some metric →
    metric.series.entries.length ≤ ledger.budget.maxSeriesForEachMetric
  namesLimit : ∀ project, state.metricsOf project ≤ ledger.maxMetricNames
  word : state.bytesHeld < 2 ^ 64

theorem Books.besides {ledger : SeriesLedger} {state : LedgerState P} (books : state.Books ledger) (pressure : Pressure)
    (lastSweepMs : Int) : LedgerState.Books ledger { state with pressure, lastSweepMs } :=
  ⟨books.activeSeries, books.activeBytes, books.bytes, books.names, books.seriesLimit, books.namesLimit, books.word⟩

def Occupied (state : LedgerState P) : Prop :=
  ∀ key metric, state.metrics.get? key = some metric → metric.series.entries ≠ []

end LedgerState

/-! A sweep. -/

theorem release_getD (names : OrderedMap P Nat) (gone project : P) : ((release names gone).get? project).getD 0 =
      (names.get? project).getD 0 - if gone = project then 1 else 0 := by
  unfold release
  cases held : names.get? gone with
  | none =>
    by_cases same : gone = project
    · subst same
      simp [held]
    · simp [same]
  | some count =>
    by_cases same : gone = project
    · subst same
      by_cases last : count - 1 = 0 <;> simp [last, held, get?_erase, get?_insert]
    · have other : project ≠ gone := Ne.symm same
      by_cases last : count - 1 = 0 <;> simp [last, same, other, get?_erase, get?_insert]

theorem foldl_release_getD (gone : List P) (names : OrderedMap P Nat) (project : P) :
    ((gone.foldl release names).get? project).getD 0 = (names.get? project).getD 0 - gone.count project := by
  induction gone generalizing names with
  | nil => simp
  | cons one rest ih =>
    rw [List.foldl_cons, ih, release_getD, List.count_cons, Nat.sub_sub, Nat.add_comm]
    simp

theorem total_indicator (metrics : OrderedMap (P ×ₗ String) MetricState) (project : P) :
    total (fun key _ => if (ofLex key).1 = project then 1 else 0) metrics =
      (metrics.entries.map fun x => (ofLex x.1).1).count project := by
  unfold total
  induction metrics.entries with
  | nil => rfl
  | cons x rest ih => simp [List.count_cons, ih, Nat.add_comm]

namespace LedgerState
variable {ledger : SeriesLedger} {state : LedgerState P}

theorem sum_expired (f : SeriesEntry → Nat) (metrics : OrderedMap (P ×ₗ String) MetricState) (horizon : Int) :
    ((metrics.values.flatMap fun metric => metric.idle horizon).map f).sum =
      total (fun _ metric => ((metric.idle horizon).map f).sum) metrics := by
  unfold values total
  induction metrics.entries with
  | nil => rfl
  | cons x rest ih => simp [← ih]

theorem sweep_metrics (state : LedgerState P) (horizon : Int) (key : P ×ₗ String) :
    (state.sweep horizon).metrics.get? key = ((state.metrics.get? key).map fun metric => metric.retain horizon).filter
      fun metric => !metric.series.entries.isEmpty :=
  get?_filter_mapValues state.metrics (fun _ metric => metric.retain horizon) (fun metric => !metric.series.entries.isEmpty) key

theorem of_sweep_metrics {horizon : Int} {key : P ×ₗ String} {metric : MetricState}
    (held : (state.sweep horizon).metrics.get? key = some metric) : ∃ before, state.metrics.get? key = some before ∧
      metric = before.retain horizon ∧ metric.series.entries ≠ [] := by
  rw [sweep_metrics, Option.filter_eq_some_iff] at held
  obtain ⟨there, kept⟩ := held
  obtain ⟨before, found, rfl⟩ := Option.map_eq_some_iff.mp there
  exact ⟨before, found, rfl, by simpa using kept⟩

theorem sweep_seriesHeld (state : LedgerState P) (horizon : Int) : (state.sweep horizon).seriesHeld +
    (state.metrics.values.flatMap fun metric => metric.idle horizon).length = state.seriesHeld := by
  have left : (state.sweep horizon).seriesHeld =
      total (fun _ metric => (metric.live horizon).entries.length) state.metrics := by
    change total (fun _ metric => metric.series.entries.length) ((state.metrics.mapValues fun _ metric =>
      metric.retain horizon).filter fun _ metric => !metric.series.entries.isEmpty) = _
    rw [total_filter_of_zero fun _ metric empty => by simpa using empty, total_mapValues]
    rfl
  have gone : (state.metrics.values.flatMap fun metric => metric.idle horizon).length =
      total (fun _ metric => (metric.idle horizon).length) state.metrics := by
    simpa using sum_expired (fun _ => 1) state.metrics horizon
  rw [left, gone, ← total_add]
  exact total_congr (m := state.metrics) fun _ metric _ => metric.length_live_add_idle horizon

theorem sweep_bytesHeld (state : LedgerState P) (horizon : Int) : (state.sweep horizon).bytesHeld +
    ((state.metrics.values.flatMap fun metric => metric.idle horizon).map SeriesEntry.bytes).sum = state.bytesHeld := by
  have left : (state.sweep horizon).bytesHeld =
      total (fun _ metric => total (fun _ entry => entry.bytes) (metric.live horizon)) state.metrics := by
    have zero (_ : P ×ₗ String) (metric : MetricState) (empty : (!metric.series.entries.isEmpty) = false) :
        metric.heldBytes = 0 := by
      have none : metric.series.entries = [] := by simpa using empty
      simp [MetricState.heldBytes, total, none]
    change total (fun _ metric => metric.heldBytes) ((state.metrics.mapValues fun _ metric =>
      metric.retain horizon).filter fun _ metric => !metric.series.entries.isEmpty) = _
    rw [total_filter_of_zero zero, total_mapValues]
    rfl
  rw [left, sum_expired, ← total_add]
  exact total_congr (m := state.metrics) fun _ metric _ => metric.bytes_live_add_idle horizon

theorem sweep_metricsOf (state : LedgerState P) (horizon : Int) (project : P) : (state.sweep horizon).metricsOf project +
    ((((state.metrics.mapValues fun _ metric => metric.retain horizon).filter
      fun _ metric => metric.series.entries.isEmpty).entries.map fun x => (ofLex x.1).1).count project) =
      state.metricsOf project := by
  have whole := total_filter_add (fun key _ => if (ofLex key).1 = project then 1 else 0)
    (state.metrics.mapValues fun _ metric => metric.retain horizon) fun _ metric => !metric.series.entries.isEmpty
  simp only [Bool.not_not] at whole
  rw [← total_indicator]
  exact whole.trans (total_mapValues _ state.metrics _)

theorem Books.sweep (books : state.Books ledger) (horizon : Int) : (state.sweep horizon).Books ledger := by
  have series := state.sweep_seriesHeld horizon
  have bytes := state.sweep_bytesHeld horizon
  have word := books.word
  refine ⟨?_, ?_, fun key metric held => ?_, fun project => ?_, fun key metric held => ?_, fun project => ?_, ?_⟩
  · change state.activeSeries - _ = _
    rw [books.activeSeries]
    omega
  · change state.activeBytes - freed _ = _
    rw [books.activeBytes, freed_eq]
    omega
  · obtain ⟨before, found, rfl, -⟩ := of_sweep_metrics held
    exact MetricState.retain_bytes (books.bytes key before found) horizon
  · have metrics := state.sweep_metricsOf horizon project
    change ((List.foldl release state.names _).get? project).getD 0 = _
    rw [foldl_release_getD, books.names, ← metrics, Nat.add_sub_cancel]
  · obtain ⟨before, found, rfl, -⟩ := of_sweep_metrics held
    exact (before.length_live_le horizon).trans (books.seriesLimit key before found)
  · have metrics := state.sweep_metricsOf horizon project
    have limit := books.namesLimit project
    omega
  · omega

theorem occupied_sweep (state : LedgerState P) (horizon : Int) : (state.sweep horizon).Occupied := by
  intro key metric held
  obtain ⟨before, found, rfl, some⟩ := of_sweep_metrics held
  exact some

/-! One metric put in place of another. -/

section
variable {key : P ×ₗ String} {metric : MetricState}

theorem put_cases {put : MetricState} {other : P ×ₗ String} {found : MetricState}
    (held : (state.metrics.insert key put).get? other = some found) :
    (other = key ∧ found = put) ∨ (other ≠ key ∧ state.metrics.get? other = some found) := by
  rw [get?_insert] at held
  split_ifs at held with same
  · exact .inl ⟨same, (Option.some.inj held).symm⟩
  · exact .inr ⟨same, held⟩

theorem Books.put (books : state.Books ledger) {next : LedgerState P} {put : MetricState}
    (metrics : next.metrics = state.metrics.insert key put) (right : put.bytes = put.heldBytes)
    (room : put.series.entries.length ≤ ledger.budget.maxSeriesForEachMetric)
    (series : next.activeSeries + (state.metrics.get? key).elim 0 (fun held => held.series.entries.length) =
      state.activeSeries + put.series.entries.length)
    (bytes : next.activeBytes + (state.metrics.get? key).elim 0 (fun held => held.heldBytes) =
      state.activeBytes + put.heldBytes) (names : ∀ project, (next.names.get? project).getD 0 +
      (state.metrics.get? key).elim 0 (fun _ => if (ofLex key).1 = project then 1 else 0) =
        (state.names.get? project).getD 0 + if (ofLex key).1 = project then 1 else 0)
    (limit : ∀ project, (next.names.get? project).getD 0 ≤ ledger.maxMetricNames)
    (word : next.activeBytes < 2 ^ 64) : next.Books ledger := by
  have lengths := total_insert (fun _ held => held.series.entries.length) state.metrics key put
  have sizes := total_insert (fun _ held => held.heldBytes) state.metrics key put
  have metricsOf (project : P) :=
    total_insert (fun key _ => if (ofLex key).1 = project then 1 else 0) state.metrics key put
  rw [← metrics] at lengths sizes
  simp only [← metrics] at metricsOf
  have activeSeries := books.activeSeries
  have activeBytes := books.activeBytes
  have counted : next.activeBytes = next.bytesHeld := by
    unfold bytesHeld at activeBytes ⊢
    omega
  have named (project : P) : (next.names.get? project).getD 0 = next.metricsOf project := by
    have moved := metricsOf project
    have before := books.names project
    have after := names project
    unfold LedgerState.metricsOf at before ⊢
    omega
  refine ⟨?_, counted, fun other found there => ?_, named, fun other found there => ?_, fun project => ?_, counted ▸ word⟩
  · unfold seriesHeld at activeSeries ⊢
    omega
  · rw [metrics] at there
    rcases put_cases there with ⟨-, rfl⟩ | ⟨-, there⟩
    · exact right
    · exact books.bytes other found there
  · rw [metrics] at there
    rcases put_cases there with ⟨-, rfl⟩ | ⟨-, there⟩
    · exact room
    · exact books.seriesLimit other found there
  · exact named project ▸ limit project

theorem Books.names_le (books : state.Books ledger) (project : P) :
    (state.names.get? project).getD 0 ≤ ledger.maxMetricNames :=
  (books.names project).le.trans (books.namesLimit project)

theorem Books.heldBytes_le (books : state.Books ledger) (held : state.metrics.get? key = some metric) :
    metric.heldBytes ≤ state.activeBytes :=
  books.activeBytes ▸ le_total (w := fun _ held => MetricState.heldBytes held) held

theorem Books.expire (books : state.Books ledger) (held : state.metrics.get? key = some metric) (horizon : Int) :
    (state.expire key metric horizon).Books ledger := by
  have right := books.bytes key metric held
  have least := books.heldBytes_le held
  have word := books.activeBytes ▸ books.word
  have length := metric.length_live_add_idle horizon
  have bytes := metric.bytes_live_add_idle horizon
  have freed : freed (metric.idle horizon) = ((metric.idle horizon).map SeriesEntry.bytes).sum := by
    rw [freed_eq]
    omega
  have count : metric.series.entries.length ≤ state.activeSeries :=
    books.activeSeries ▸ le_total (w := fun _ held => List.length (OrderedMap.entries (MetricState.series held))) held
  refine books.put rfl ?_ ?_ ?_ ?_ (fun project => ?_) books.names_le ?_
  · change metric.bytes - Collector.freed _ = total (fun _ entry => entry.bytes) (metric.live horizon)
    omega
  · exact (metric.length_live_le horizon).trans (books.seriesLimit key metric held)
  · rw [held]
    change state.activeSeries - _ + metric.series.entries.length = _ + (metric.live horizon).entries.length
    omega
  · rw [held]
    change state.activeBytes - Collector.freed _ + metric.heldBytes =
      _ + total (fun _ entry => entry.bytes) (metric.live horizon)
    omega
  · rw [held]
    rfl
  · exact (Nat.sub_le _ _).trans_lt word

variable {seriesKey : String} {size : Nat} {nowMs : Int}

theorem Books.renew {entry : SeriesEntry} (books : state.Books ledger) (held : state.metrics.get? key = some metric)
    (known : metric.series.get? seriesKey = some entry) (fits : state.activeBytes - entry.bytes + size < 2 ^ 64) :
    (state.renew key metric seriesKey entry size nowMs).Books ledger := by
  have right := books.bytes key metric held
  have least := books.heldBytes_le held
  have part : entry.bytes ≤ metric.heldBytes := le_total (w := fun _ e => SeriesEntry.bytes e) known
  have bytes : total (fun _ entry => entry.bytes) (metric.series.insert seriesKey ⟨nowMs, size⟩) + entry.bytes =
      metric.heldBytes + size := total_insert_some known
  have length : (metric.series.insert seriesKey ⟨nowMs, size⟩).entries.length = metric.series.entries.length := by
    simp [length_insert, known]
  have sum : saturatingAdd (state.activeBytes - entry.bytes) size = state.activeBytes - entry.bytes + size := by
    unfold saturatingAdd
    omega
  refine books.put rfl ?_ ?_ ?_ ?_ (fun project => ?_) books.names_le ?_
  · change saturatingAdd (metric.bytes - entry.bytes) size =
      total (fun _ entry => entry.bytes) (metric.series.insert seriesKey ⟨nowMs, size⟩)
    unfold saturatingAdd
    omega
  · exact length.le.trans (books.seriesLimit key metric held)
  · rw [held]
    exact congrArg (state.activeSeries + ·) length.symm
  · rw [held]
    change saturatingAdd (state.activeBytes - entry.bytes) size + metric.heldBytes =
      _ + total (fun _ entry => entry.bytes) (metric.series.insert seriesKey ⟨nowMs, size⟩)
    omega
  · rw [held]
    rfl
  · exact sum.le.trans_lt fits

theorem Books.enter_held (books : state.Books ledger) (held : state.metrics.get? key = some metric)
    (unknown : metric.series.get? seriesKey = none)
    (room : metric.series.entries.length < ledger.budget.maxSeriesForEachMetric)
    (fits : state.activeBytes + size < 2 ^ 64) : (state.enter key seriesKey size nowMs).Books ledger := by
  have right := books.bytes key metric held
  have least := books.heldBytes_le held
  have bytes : total (fun _ entry => entry.bytes) (metric.series.insert seriesKey ⟨nowMs, size⟩) =
      metric.heldBytes + size := total_insert_none unknown
  have length : (metric.series.insert seriesKey ⟨nowMs, size⟩).entries.length = metric.series.entries.length + 1 := by
    simp [length_insert, unknown]
  have sum : saturatingAdd state.activeBytes size = state.activeBytes + size := by
    unfold saturatingAdd
    omega
  have put : state.enter key seriesKey size nowMs = { state with
      metrics := state.metrics.insert key
        ⟨metric.series.insert seriesKey ⟨nowMs, size⟩, saturatingAdd metric.bytes size⟩
      activeSeries := state.activeSeries + 1
      activeBytes := saturatingAdd state.activeBytes size } := by
    simp [enter, held]
  rw [put]
  refine books.put rfl ?_ ?_ ?_ ?_ (fun project => ?_) books.names_le ?_
  · change saturatingAdd metric.bytes size =
      total (fun _ entry => entry.bytes) (metric.series.insert seriesKey ⟨nowMs, size⟩)
    unfold saturatingAdd
    omega
  · exact length.le.trans room
  · rw [held]
    change state.activeSeries + 1 + metric.series.entries.length =
      _ + (metric.series.insert seriesKey ⟨nowMs, size⟩).entries.length
    omega
  · rw [held]
    change saturatingAdd state.activeBytes size + metric.heldBytes =
      _ + total (fun _ entry => entry.bytes) (metric.series.insert seriesKey ⟨nowMs, size⟩)
    omega
  · rw [held]
    rfl
  · exact sum.le.trans_lt fits

theorem Books.enter_new (books : state.Books ledger) (absent : state.metrics.get? key = none)
    (limit : 1 ≤ ledger.budget.maxSeriesForEachMetric)
    (room : (state.names.get? (ofLex key).1).getD 0 < ledger.maxMetricNames)
    (fits : state.activeBytes + size < 2 ^ 64) : (state.enter key seriesKey size nowMs).Books ledger := by
  have bytes : total (fun _ entry => entry.bytes) ((∅ : OrderedMap String SeriesEntry).insert seriesKey ⟨nowMs, size⟩) =
      0 + size := total_insert_none rfl
  have length : ((∅ : OrderedMap String SeriesEntry).insert seriesKey ⟨nowMs, size⟩).entries.length = 1 := rfl
  have sum : saturatingAdd state.activeBytes size = state.activeBytes + size := by
    unfold saturatingAdd
    omega
  have put : state.enter key seriesKey size nowMs = { state with
      metrics := state.metrics.insert key
        ⟨(∅ : OrderedMap String SeriesEntry).insert seriesKey ⟨nowMs, size⟩, saturatingAdd 0 size⟩
      names := state.names.insert (ofLex key).1 ((state.names.get? (ofLex key).1).getD 0 + 1)
      activeSeries := state.activeSeries + 1
      activeBytes := saturatingAdd state.activeBytes size } := by
    simp [enter, absent]
  have names (project : P) : ((state.names.insert (ofLex key).1 ((state.names.get? (ofLex key).1).getD 0 + 1)).get?
      project).getD 0 = (state.names.get? project).getD 0 + if (ofLex key).1 = project then 1 else 0 := by
    rw [get?_insert]
    by_cases same : project = (ofLex key).1
    · simp [same]
    · simp [same, Ne.symm same]
  rw [put]
  refine books.put rfl ?_ ?_ ?_ ?_ (fun project => ?_) (fun project => ?_) ?_
  · change saturatingAdd 0 size = total (fun _ entry => entry.bytes) ((∅ : OrderedMap String SeriesEntry).insert _ _)
    unfold saturatingAdd
    omega
  · exact length.le.trans limit
  · rw [absent]
    rfl
  · rw [absent]
    change saturatingAdd state.activeBytes size + 0 =
      _ + total (fun _ entry => entry.bytes) ((∅ : OrderedMap String SeriesEntry).insert seriesKey ⟨nowMs, size⟩)
    omega
  · rw [absent]
    exact names project
  · refine (names project).le.trans ?_
    have old := books.names_le project
    by_cases same : (ofLex key).1 = project
    · rw [if_pos same]
      exact same ▸ room
    · rw [if_neg same]
      exact old
  · exact sum.le.trans_lt fits

theorem enter_occupied (others : ∀ other found, other ≠ key → state.metrics.get? other = some found →
    found.series.entries ≠ []) : (state.enter key seriesKey size nowMs).Occupied := by
  intro other found there
  rcases put_cases there with ⟨-, rfl⟩ | ⟨different, there⟩
  · intro empty
    have inside : (((state.metrics.get? key).getD ⟨∅, 0⟩).series.insert seriesKey ⟨nowMs, size⟩).get? seriesKey =
        some ⟨nowMs, size⟩ := by
      rw [get?_insert, if_pos rfl]
    have member := get?_eq_some.mp inside
    rw [show (((state.metrics.get? key).getD ⟨∅, 0⟩).series.insert seriesKey ⟨nowMs, size⟩).entries = [] from empty]
      at member
    cases member
  · exact others other found different there

theorem Occupied.renew {entry : SeriesEntry} (occupied : state.Occupied)
    (known : metric.series.get? seriesKey = some entry) : (state.renew key metric seriesKey entry size nowMs).Occupied := by
  intro other found there
  rcases put_cases there with ⟨-, rfl⟩ | ⟨-, there⟩
  · have length : (metric.series.insert seriesKey ⟨nowMs, size⟩).entries.length = metric.series.entries.length := by
      simp [length_insert, known]
    have some : 0 < metric.series.entries.length := List.length_pos_of_mem (get?_eq_some.mp known)
    exact List.ne_nil_of_length_pos (length ▸ some)
  · exact occupied other found there

def Holds (state : LedgerState P) (key : P ×ₗ String) (seriesKey : String) (entry : SeriesEntry) : Prop :=
  ∃ metric, state.metrics.get? key = some metric ∧ metric.series.get? seriesKey = some entry

/-- What is held is what was, but for series that were idle. -/
structure OnlyExpired (horizon : Int) (before after : LedgerState P) : Prop where
  metrics : ∀ key, (after.metrics.get? key).isSome → (before.metrics.get? key).isSome
  held : ∀ key seriesKey entry, after.Holds key seriesKey entry → before.Holds key seriesKey entry
  idle : ∀ key seriesKey entry, before.Holds key seriesKey entry →
    after.Holds key seriesKey entry ∨ entry.lastSeenMs ≤ horizon

theorem OnlyExpired.refl (horizon : Int) (state : LedgerState P) : OnlyExpired horizon state state :=
  ⟨fun _ some => some, fun _ _ _ held => held, fun _ _ _ held => .inl held⟩

theorem OnlyExpired.trans {horizon : Int} {first second third : LedgerState P} (one : OnlyExpired horizon first second)
    (two : OnlyExpired horizon second third) : OnlyExpired horizon first third := by
  refine ⟨fun key some => one.metrics key (two.metrics key some), fun key seriesKey entry held =>
    one.held key seriesKey entry (two.held key seriesKey entry held), fun key seriesKey entry held => ?_⟩
  rcases one.idle key seriesKey entry held with still | idle
  · exact two.idle key seriesKey entry still
  · exact .inr idle

theorem OnlyExpired.besides {horizon : Int} {before after : LedgerState P} (only : OnlyExpired horizon before after)
    (pressure : Pressure) : OnlyExpired horizon before { after with pressure } :=
  ⟨only.metrics, only.held, only.idle⟩

theorem get?_live (metric : MetricState) (horizon : Int) (seriesKey : String) (entry : SeriesEntry) :
    (metric.live horizon).get? seriesKey = some entry ↔
      metric.series.get? seriesKey = some entry ∧ horizon < entry.lastSeenMs := by
  rw [MetricState.live, get?_eq_some, mem_filter, ← get?_eq_some, decide_eq_true_iff]

theorem onlyExpired_sweep (state : LedgerState P) (horizon : Int) : OnlyExpired horizon state (state.sweep horizon) := by
  refine ⟨fun key some => ?_, fun key seriesKey entry held => ?_, fun key seriesKey entry held => ?_⟩
  · obtain ⟨metric, held⟩ := Option.isSome_iff_exists.mp some
    obtain ⟨before, found, -⟩ := of_sweep_metrics held
    exact Option.isSome_iff_exists.mpr ⟨before, found⟩
  · obtain ⟨metric, held, known⟩ := held
    obtain ⟨before, found, rfl, -⟩ := of_sweep_metrics held
    exact ⟨before, found, ((get?_live before horizon seriesKey entry).mp known).1⟩
  · obtain ⟨metric, held, known⟩ := held
    refine (lt_or_ge horizon entry.lastSeenMs).imp (fun fresh => ⟨metric.retain horizon, ?_, ?_⟩) id
    · have kept := (get?_live metric horizon seriesKey entry).mpr ⟨known, fresh⟩
      rw [sweep_metrics, held, Option.map_some]
      refine Option.filter_eq_some_iff.mpr ⟨rfl, ?_⟩
      have inside : (seriesKey, entry) ∈ (metric.retain horizon).series.entries := get?_eq_some.mp kept
      cases empty : (metric.retain horizon).series.entries with
      | nil =>
        rw [empty] at inside
        cases inside
      | cons => rfl
    · exact (get?_live metric horizon seriesKey entry).mpr ⟨known, fresh⟩

theorem onlyExpired_expire (held : state.metrics.get? key = some metric) (horizon : Int) :
    OnlyExpired horizon state (state.expire key metric horizon) := by
  have under (other : P ×ₗ String) : (state.expire key metric horizon).metrics.get? other =
      if other = key then some ⟨metric.live horizon, metric.bytes - freed (metric.idle horizon)⟩
      else state.metrics.get? other := get?_insert _ _ _ _
  refine ⟨fun other some => ?_, fun other seriesKey entry holds => ?_, fun other seriesKey entry holds => ?_⟩
  · rw [under] at some
    split_ifs at some with same
    · rw [same, held]
      rfl
    · exact some
  · obtain ⟨found, there, known⟩ := holds
    rw [under] at there
    split_ifs at there with same
    · cases there
      exact ⟨metric, same ▸ held, ((get?_live metric horizon seriesKey entry).mp known).1⟩
    · exact ⟨found, there, known⟩
  · obtain ⟨found, there, known⟩ := holds
    by_cases same : other = key
    · obtain rfl : metric = found := Option.some.inj (held.symm.trans (same ▸ there))
      refine (lt_or_ge horizon entry.lastSeenMs).imp (fun fresh => ⟨_, (under other).trans (if_pos same), ?_⟩) id
      exact (get?_live metric horizon seriesKey entry).mpr ⟨known, fresh⟩
    · exact .inl ⟨found, (under other).trans ((if_neg same).trans there), known⟩

end
end LedgerState

end TallyOwl.Collector
