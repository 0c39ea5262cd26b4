import TallyOwl.Head.Rollup

/-! The increase of counters (`query.rs`), read point by point, and what downsample passes
do to it. A rolled-up point is a delta point beside the points it was made from, and its
time is the end of its window, which is the first instant of the next one. -/
namespace TallyOwl.Rollup
open Lib List OrderedMap
open Query (QueryError)

def counterSampleCap : Nat := 100000

structure CounterSample where
  moment : Int
  startAt : Int
  value : ℚ
  delta : Bool
  deriving DecidableEq

abbrev Series := OrderedMap String (List CounterSample)

def overCap (measure : String) : QueryError :=
  ⟨.budgetExceeded, s!"The measure `{measure}` reads a counter sample by sample, and this query passed {counterSampleCap} samples of one series. Narrow the time range, or group by a longer interval."⟩

section
variable (parse : String → Option ℚ) (measure : String)

def asFloat : Value → Option ℚ
  | .integer v => some v
  | .unsigned v => some v
  | .float v => some v
  | .decimal v => parse v
  | _ => none

def numberProperty (row : Row) (key : String) : Option ℚ := (value row key).bind (asFloat parse)

def seriesOf (row : Row) : String := (text row "series_key").getD row.name

def addCounterSample (series : Series) (row : Row) : Except QueryError Series :=
  match numberProperty parse row "value" with
  | none => .ok series
  | some v =>
      let sample : CounterSample :=
        ⟨(integer row "end_at").getD row.occurredAt, (integer row "start_at").getD row.occurredAt, v,
          text row "temporality" = some "delta"⟩
      let held := (series.get? (seriesOf row)).getD []
      if held.length ≥ counterSampleCap then .error (overCap measure)
      else .ok (series.insert (seriesOf row) (held ++ [sample]))

def addSample (state : ℚ × Option CounterSample) (sample : CounterSample) : ℚ × Option CounterSample :=
  let added :=
    if sample.delta then sample.value
    else
      match state.2 with
      -- the first cumulative reading is a level
      | none => 0
      | some before =>
          if sample.startAt ≠ before.startAt ∨ sample.value < before.value then sample.value
          else sample.value - before.value
  (state.1 + added, some sample)

structure Totals where
  total : ℚ
  earliest : Int
  latest : Int
  sawAny : Bool

def Totals.start : Totals := ⟨0, 2 ^ 63 - 1, -2 ^ 63, false⟩

def Totals.add (totals : Totals) (samples : List CounterSample) : Totals :=
  let ordered := samples.insertionSort fun a b => a.moment ≤ b.moment
  match ordered with
  | [] => totals
  | first :: _ => {
      total := (ordered.foldl addSample (totals.total, none)).1
      earliest := min totals.earliest first.moment
      latest := max totals.latest ((ordered.getLast?.map CounterSample.moment).getD first.moment)
      sawAny := true }

def finishCounter (perSecond : Bool) (series : Series) : Value :=
  let totals := series.values.foldl Totals.add .start
  if !totals.sawAny then .null
  else if !perSecond then .float totals.total
  else
    let spanMs := totals.latest - totals.earliest
    if spanMs ≤ 0 then .null else .float (totals.total / (spanMs / 1000))

def inRange (start stop : Int) (row : Row) : Bool :=
  row.kind = "metric-point" ∧ start ≤ row.occurredAt ∧ row.occurredAt < stop

/-- An `increase` over a range of the rows of a project. -/
def increase (rows : List Row) (start stop : Int) : Except QueryError Value :=
  ((rows.filter (inRange start stop)).foldlM (addCounterSample parse measure) ∅).map (finishCounter false)

end

/-- The number an answer stands for. No point at all is no increase. -/
def counted : Value → ℚ
  | .float v => v
  | _ => 0

def valueOf (row : Row) : ℚ := (number row "value").getD 0

def total (rows : List Row) : ℚ := (rows.map valueOf).sum

/-- A delta point, which says what happened in its own period. -/
structure Delta (row : Row) : Prop where
  delta : text row "temporality" = some "delta"
  valued : (number row "value").isSome

structure RawCounter (row : Row) : Prop extends Delta row where
  kind : row.kind = "metric-point"
  counter : text row "metric_kind" = some "counter"
  raw : row.properties.get? "rollup_resolution_ms" = none
  plain : text row "histogram_bounds" = none

/-! The fold over delta points. -/

section
variable {parse : String → Option ℚ} {measure : String} {series after : Series} {rows : List Row} {row : Row}

theorem numberProperty_of_number {v : ℚ} {key : String} (found : number row key = some v) :
    numberProperty parse row key = some v := by
  unfold number at found
  unfold numberProperty
  cases held : value row key with
  | none => simp [held] at found
  | some property => cases property <;> simp_all [asFloat]

def count (series : Series) (key : String) : Nat := ((series.get? key).getD []).length

def arriving (rows : List Row) (key : String) : Nat := (rows.filter fun row => seriesOf row = key).length

def heldTotal (series : Series) : ℚ :=
  (series.entries.map fun x => (x.2.map CounterSample.value).sum).sum

def AllDelta (series : Series) : Prop := ∀ x ∈ series.entries, ∀ sample ∈ x.2, sample.delta = true

structure Took (series : Series) (row : Row) (after : Series) : Prop where
  counts : ∀ key, count after key = count series key + if key = seriesOf row then 1 else 0
  total : heldTotal after = heldTotal series + valueOf row
  delta : AllDelta series → AllDelta after

theorem addCounterSample_delta (delta : Delta row) (room : count series (seriesOf row) < counterSampleCap) :
    ∃ after, addCounterSample parse measure series row = .ok after ∧ Took series row after := by
  obtain ⟨v, found⟩ := Option.isSome_iff_exists.mp delta.valued
  have worth : valueOf row = v := by simp [valueOf, found]
  refine ⟨_, by
    simp only [addCounterSample, numberProperty_of_number found, ge_iff_le]
    exact if_neg (not_le.mpr room), fun key => ?_, ?_, fun all x inside sample held => ?_⟩
  · unfold count
    rw [get?_insert]
    by_cases same : key = seriesOf row
    · subst same
      simp
    · simp [same]
  · unfold heldTotal
    rw [sum_insert fun _ (samples : List CounterSample) => (samples.map CounterSample.value).sum, worth]
    cases held : series.get? (seriesOf row) with
    | none => simp
    | some samples =>
      simp only [Option.elim_some, Option.getD_some, map_append, sum_append, map_cons,
        map_nil, sum_cons, sum_nil, add_zero]
      ring
  · rcases mem_insert.mp inside with rfl | ⟨old, -⟩
    · rcases mem_append.mp held with before | mine
      · cases there : series.get? (seriesOf row) with
        | none => simp [there] at before
        | some samples =>
          rw [there] at before
          exact all _ (get?_eq_some.mp there) sample before
      · obtain rfl := mem_singleton.mp mine
        simp [delta.delta]
    · exact all x old sample held

theorem arriving_cons (row : Row) (rest : List Row) (key : String) :
    arriving (row :: rest) key = (if key = seriesOf row then 1 else 0) + arriving rest key := by
  unfold arriving
  by_cases same : seriesOf row = key
  · simp [same, add_comm]
  · simp [same, Ne.symm same]

def Fits (series : Series) (rows : List Row) : Prop :=
  ∀ key, count series key + arriving rows key ≤ counterSampleCap

theorem Took.fits {rest : List Row} (took : Took series row after) : Fits series (row :: rest) ↔ Fits after rest := by
  refine forall_congr' fun key => ?_
  rw [took.counts, arriving_cons, add_assoc]

theorem Fits.room {rest : List Row} (fits : Fits series (row :: rest)) :
    count series (seriesOf row) < counterSampleCap := by
  have most := fits (seriesOf row)
  rw [arriving_cons, if_pos rfl] at most
  omega

theorem fold_delta (each : ∀ row ∈ rows, Delta row) (fits : Fits series rows) (all : AllDelta series) :
    ∃ after, rows.foldlM (addCounterSample parse measure) series = .ok after ∧
      heldTotal after = heldTotal series + total rows ∧ AllDelta after := by
  induction rows generalizing series with
  | nil => exact ⟨series, rfl, by simp [total], all⟩
  | cons row rest ih =>
    obtain ⟨next, added, took⟩ := @addCounterSample_delta parse measure series row
      (each row mem_cons_self) fits.room
    obtain ⟨after, ran, sum, delta⟩ := ih (fun row inside => each row (mem_cons_of_mem _ inside))
      (took.fits.mp fits) (took.delta all)
    refine ⟨after, ?_, ?_, delta⟩
    · rw [foldlM_cons, added]
      exact ran
    · rw [sum, took.total, total, total, map_cons, sum_cons, add_assoc]

theorem fold_over_cap (each : ∀ row ∈ rows, Delta row) (small : ∀ key, count series key ≤ counterSampleCap)
    (past : ¬ Fits series rows) : ∃ e, rows.foldlM (addCounterSample parse measure) series = .error e := by
  induction rows generalizing series with
  | nil => exact (past fun key => by simpa [arriving] using small key).elim
  | cons row rest ih =>
    rw [foldlM_cons]
    by_cases room : count series (seriesOf row) < counterSampleCap
    · obtain ⟨next, added, took⟩ := @addCounterSample_delta parse measure series row
        (each row mem_cons_self) room
      rw [added]
      refine ih (fun row inside => each row (mem_cons_of_mem _ inside)) (fun key => ?_)
        (mt took.fits.mpr past)
      have before := small key
      rw [took.counts]
      split
      · rename_i same
        rw [same]
        omega
      · omega
    · obtain ⟨v, found⟩ := Option.isSome_iff_exists.mp (each row mem_cons_self).valued
      have full : addCounterSample parse measure series row = .error (overCap measure) := by
        simp only [addCounterSample, numberProperty_of_number found, ge_iff_le]
        exact if_pos (not_lt.mp room)
      exact ⟨overCap measure, by rw [full]; rfl⟩

theorem foldl_addSample {samples : List CounterSample} (all : ∀ sample ∈ samples, sample.delta = true)
    (state : ℚ × Option CounterSample) :
    (samples.foldl addSample state).1 = state.1 + (samples.map CounterSample.value).sum := by
  induction samples generalizing state with
  | nil => simp
  | cons sample rest ih =>
    rw [foldl_cons, ih fun s inside => all s (mem_cons_of_mem _ inside)]
    simp [addSample, all sample mem_cons_self, add_assoc]

theorem totals_add {samples : List CounterSample} (all : ∀ sample ∈ samples, sample.delta = true)
    (totals : Totals) : (totals.add samples).total = totals.total + (samples.map CounterSample.value).sum ∧
      ((totals.add samples).sawAny = false → totals.sawAny = false ∧ samples = []) := by
  have perm := perm_insertionSort (fun a b : CounterSample => a.moment ≤ b.moment) samples
  have sum := (perm.map CounterSample.value).sum_eq
  unfold Totals.add
  cases sorted : samples.insertionSort fun a b => a.moment ≤ b.moment with
  | nil =>
    rw [sorted] at perm
    obtain rfl := perm.nil_eq.symm
    simp
  | cons first rest =>
    rw [sorted] at perm sum
    refine ⟨?_, fun none => by cases none⟩
    dsimp only
    rw [foldl_addSample fun sample inside => all sample (perm.mem_iff.mp inside), sum]

theorem counted_finishCounter (all : AllDelta series) : counted (finishCounter false series) = heldTotal series := by
  have folded : ∀ (lists : List (List CounterSample)) (totals : Totals),
      (∀ samples ∈ lists, ∀ sample ∈ samples, sample.delta = true) → (totals.sawAny = false → totals.total = 0) →
      (lists.foldl Totals.add totals).total =
          totals.total + (lists.map fun samples => (samples.map CounterSample.value).sum).sum ∧
        ((lists.foldl Totals.add totals).sawAny = false → (lists.foldl Totals.add totals).total = 0) := by
    intro lists
    induction lists with
    | nil => exact fun totals _ nothing => ⟨by simp, nothing⟩
    | cons samples rest ih =>
      intro totals each nothing
      obtain ⟨sum, saw⟩ := totals_add (each samples mem_cons_self) totals
      obtain ⟨later, still⟩ := ih (totals.add samples)
        (fun samples inside => each samples (mem_cons_of_mem _ inside)) fun none => by
          obtain ⟨before, rfl⟩ := saw none
          rw [sum, nothing before]
          simp
      exact ⟨by rw [foldl_cons, later, sum, map_cons, sum_cons, add_assoc], still⟩
  obtain ⟨sum, none⟩ := folded series.values .start (fun samples inside => by
    obtain ⟨key, there⟩ := mem_values.mp inside
    exact all _ there) fun _ => rfl
  have held : heldTotal series = (series.values.foldl Totals.add .start).total := by
    rw [sum, heldTotal, OrderedMap.values, map_map]
    simp [Function.comp_def, Totals.start]
  rw [held]
  unfold finishCounter
  cases saw : (series.values.foldl Totals.add .start).sawAny with
  | false => simp [saw, counted, none saw]
  | true => simp [saw, counted]

theorem increase_delta (start stop : Int) (each : ∀ row ∈ rows, row.kind = "metric-point" → Delta row) (sum : ℚ) :
    (increase parse measure rows start stop).map counted = .ok sum ↔
      Fits ∅ (rows.filter (inRange start stop)) ∧ total (rows.filter (inRange start stop)) = sum := by
  have delta : ∀ row ∈ rows.filter (inRange start stop), Delta row := by
    intro row inside
    obtain ⟨there, inRange⟩ := List.mem_filter.mp inside
    exact each row there (of_decide_eq_true inRange).1
  unfold increase
  by_cases fits : Fits ∅ (rows.filter (inRange start stop))
  · obtain ⟨after, ran, held, all⟩ := @fold_delta parse measure ∅ _ delta fits fun x inside => by cases inside
    have nothing : heldTotal ∅ = 0 := rfl
    rw [ran]
    simp [Except.map, fits, counted_finishCounter all, held, nothing]
  · obtain ⟨e, ran⟩ := @fold_over_cap parse measure ∅ _ delta (fun key => Nat.zero_le _) fits
    rw [ran]
    simp [Except.map, fits]

end

/-! What a pass makes of counter points. -/

section
variable {format : ℚ → String} {digest : Bytes → Id} {row : Row} {key : String} {bucketMs : Int}

@[simp] theorem value_withProperty (name : String) (held : Value) (origin : String) :
    value (row.withProperty name held origin) key = if key = name then some held else value row key := by
  unfold value Row.withProperty
  rw [get?_insert]
  split <;> rfl

theorem value_labels {labels : List (String × Value)} (other : ∀ label ∈ labels, label.1 ≠ key) :
    value (labels.foldl (fun row label => row.withProperty label.1 label.2 "client") row) key = value row key := by
  induction labels generalizing row with
  | nil => rfl
  | cons label rest ih =>
    rw [foldl_cons, ih fun l inside => other l (mem_cons_of_mem _ inside), value_withProperty,
      if_neg (other label mem_cons_self).symm]

theorem labelProperties_other (key : String) (field : key ∈ metricFields) (row : Row) :
    ∀ label ∈ labelProperties row, label.1 ≠ key := by
  rintro label inside rfl
  obtain ⟨entry, kept, rfl⟩ := mem_map.mp inside
  exact (of_decide_eq_true (List.mem_filter.mp kept).2).1 field

structure Plain (rolled : Rolled) : Prop where
  layout : rolled.layout = none
  unmixed : rolled.mixedLayouts = false
  labels : ∀ key ∈ metricFields, ∀ label ∈ rolled.labels, label.1 ≠ key

/-- The row of such a window: a delta point with its sum, dated at its end. -/
structure Summary (rolled : Rolled) (endAt : Int) (made : Row) : Prop extends Delta made where
  worth : valueOf made = rolled.value
  kind : made.kind = "metric-point"
  dated : made.occurredAt = endAt

theorem intoRow_plain {rolled : Rolled} (plain : Plain rolled) (name : String) (startAt endAt : Int) (projectId : Id) :
    Summary rolled endAt (rolled.intoRow format digest name startAt endAt projectId) := by
  have stamped := @stamp_intoRow format digest rolled name startAt endAt projectId
  simp only [stamp, Prod.mk.injEq] at stamped
  have temporality : value (rolled.intoRow format digest name startAt endAt projectId) "temporality" =
      some (.text "delta") := by
    unfold Rolled.intoRow Row.keyed
    rw [plain.layout]
    simp only [value_withProperty]
    rw [value_labels (plain.labels "temporality" (by decide))]
    cases rolled.unit <;> simp [metricRow]
  have worth : value (rolled.intoRow format digest name startAt endAt projectId) "value" =
      some (.float rolled.value) := by
    unfold Rolled.intoRow Row.keyed
    rw [plain.layout]
    simp
  exact ⟨⟨by simp [text, temporality], by simp [number, worth]⟩, by simp [valueOf, number, worth],
    stamped.2.1, stamped.2.2.2⟩

/-- The window a counter point falls in, by the end of its period. -/
def bucketOf (bucketMs : Int) (row : Row) : Int := windowOf bucketMs ((integer row "end_at").getD row.occurredAt)

def chosenTotal (chosen : Int → Bool) (windows : OrderedMap Key Rolled) : ℚ :=
  (windows.entries.map fun x => if chosen (ofLex x.1).1 then x.2.value else 0).sum

def AllPlain (windows : OrderedMap Key Rolled) : Prop := ∀ x ∈ windows.entries, Plain x.2

theorem rollPoint_raw (raw : RawCounter row) (pass : Pass) (chosen : Int → Bool)
    (plain : AllPlain pass.windows) : AllPlain (rollPoint bucketMs pass row).windows ∧
      chosenTotal chosen (rollPoint bucketMs pass row).windows =
        chosenTotal chosen pass.windows + if chosen (bucketOf bucketMs row) then valueOf row else 0 := by
  let entry := (pass.windows.get? (toLex (bucketOf bucketMs row,
    toLex ((text row "metric_name").getD row.name, (text row "series_key").getD "")))).getD
      ⟨"", none, labelProperties row, 0, none, [], 0, 0, false, 0⟩
  have held : Plain entry := by
    unfold entry
    cases there : pass.windows.get? (toLex (bucketOf bucketMs row,
        toLex ((text row "metric_name").getD row.name, (text row "series_key").getD ""))) with
    | none => exact ⟨rfl, rfl, fun key field => labelProperties_other key field row⟩
    | some found => exact plain _ (get?_eq_some.mp there)
  have step : (rollPoint bucketMs pass row).windows = pass.windows.insert (toLex (bucketOf bucketMs row,
      toLex ((text row "metric_name").getD row.name, (text row "series_key").getD "")))
      { entry with
        value := entry.value + valueOf row
        kind := "counter"
        unit := text row "unit"
        rolledUp := entry.rolledUp + 1 } := by
    simp [rollPoint, raw.kind, raw.raw, raw.counter, raw.delta, raw.plain, entry, bucketOf, valueOf]
  rw [step]
  refine ⟨fun x inside => ?_, ?_⟩
  · rcases mem_insert.mp inside with rfl | ⟨old, -⟩
    · exact ⟨held.layout, held.unmixed, held.labels⟩
    · exact plain x old
  · unfold chosenTotal
    rw [sum_insert fun (key : Key) (rolled : Rolled) => if chosen (ofLex key).1 then rolled.value else 0]
    unfold entry
    cases pass.windows.get? (toLex (bucketOf bucketMs row,
        toLex ((text row "metric_name").getD row.name, (text row "series_key").getD ""))) with
    | none => simp
    | some found =>
      by_cases pick : chosen (bucketOf bucketMs row)
      · simp only [Option.elim_some, Option.getD_some, ofLex_toLex, pick, if_true]
        ring
      · simp [pick]

theorem foldl_rollPoint {rows : List Row} (raw : ∀ row ∈ rows, RawCounter row) (pass : Pass)
    (chosen : Int → Bool) (plain : AllPlain pass.windows) : AllPlain (rows.foldl (rollPoint bucketMs) pass).windows ∧
      chosenTotal chosen (rows.foldl (rollPoint bucketMs) pass).windows =
        chosenTotal chosen pass.windows + total (rows.filter fun row => chosen (bucketOf bucketMs row)) := by
  induction rows generalizing pass with
  | nil => exact ⟨plain, by simp [total]⟩
  | cons row rest ih =>
    obtain ⟨still, sum⟩ := @rollPoint_raw row bucketMs (raw row mem_cons_self) pass chosen plain
    obtain ⟨all, later⟩ := ih (fun row inside => raw row (mem_cons_of_mem _ inside)) _ still
    refine ⟨all, ?_⟩
    rw [foldl_cons, later, sum]
    by_cases pick : chosen (bucketOf bucketMs row)
    · simp [pick, total, add_assoc]
    · simp [pick, total]

/-- What a pass over counter points produces: delta points, and in a range the sum of the points
whose windows end in it. -/
theorem downsample_raw {rows : List Row} {projectId : Id} (raw : ∀ row ∈ rows, RawCounter row)
    (positive : 0 < bucketMs) (start stop : Int) :
    (∀ made ∈ (downsample format digest rows bucketMs projectId).rows, Delta made) ∧
      total ((downsample format digest rows bucketMs projectId).rows.filter (inRange start stop)) =
        total (rows.filter fun row =>
          start ≤ bucketOf bucketMs row + bucketMs ∧ bucketOf bucketMs row + bucketMs < stop) := by
  obtain ⟨plain, sum⟩ := @foldl_rollPoint bucketMs rows raw ⟨∅, 0, 0⟩
    (fun bucket => start ≤ bucket + bucketMs ∧ bucket + bucketMs < stop) fun x inside => by cases inside
  have nothing : ∀ chosen, chosenTotal chosen ∅ = 0 := fun _ => rfl
  rw [nothing, zero_add] at sum
  unfold downsample
  rw [if_neg (not_le.mpr positive)]
  dsimp only
  generalize (rows.foldl (rollPoint bucketMs) ⟨∅, 0, 0⟩).windows = windows at plain sum
  have each : ∀ x ∈ windows.entries, ∃ made, windowRow format digest bucketMs projectId x = some made ∧
      Summary x.2 ((ofLex x.1).1 + bucketMs) made := by
    intro x inside
    have made : windowRow format digest bucketMs projectId x = some (x.2.intoRow format digest
        (ofLex (ofLex x.1).2).1 (ofLex x.1).1 ((ofLex x.1).1 + bucketMs) projectId) := by
      simp [windowRow, (plain x inside).unmixed]
    exact ⟨_, made, intoRow_plain (plain x inside) _ _ _ _⟩
  refine ⟨fun made inside => ?_, ?_⟩
  · obtain ⟨x, there, found⟩ := mem_filterMap.mp inside
    obtain ⟨other, same, summary⟩ := each x there
    obtain rfl := Option.some.inj (same.symm.trans found)
    exact summary.toDelta
  · rw [← sum]
    unfold chosenTotal
    generalize windows.entries = entries at each
    induction entries with
    | nil => rfl
    | cons x rest ih =>
      obtain ⟨made, found, summary⟩ := each x mem_cons_self
      have later := ih fun y inside => each y (mem_cons_of_mem _ inside)
      rw [filterMap_cons_some found, map_cons, sum_cons, ← later]
      by_cases pick : start ≤ (ofLex x.1).1 + bucketMs ∧ (ofLex x.1).1 + bucketMs < stop
      · simp [inRange, summary.kind, summary.dated, pick, total, summary.worth]
      · simp [inRange, summary.kind, summary.dated, pick, total]

end

/-! A store that holds points and what passes made of them. -/

section
variable (format : ℚ → String) (digest : Bytes → Id) (projectId : Id) (raw : List Row) (kept : Row → Bool)
  (passes : List Int) (bucketMs : Int)

def windowPoints (start : Int) : List Row :=
  raw.filter fun row => start ≤ row.occurredAt ∧ row.occurredAt < start + bucketMs

def stored : List Row :=
  raw.filter kept ++
    passes.flatMap fun start => (downsample format digest (windowPoints raw bucketMs start) bucketMs projectId).rows

/-- What the passes took from points into rows that are dated in a range. -/
def rolledInto (start stop : Int) : ℚ :=
  (passes.map fun window => total ((windowPoints raw bucketMs window).filter fun row =>
    start ≤ bucketOf bucketMs row + bucketMs ∧ bucketOf bucketMs row + bucketMs < stop)).sum

def removed (start stop : Int) : ℚ := total (raw.filter fun row => inRange start stop row && !kept row)

theorem total_append (first second : List Row) : total (first ++ second) = total first + total second := by
  simp [total]

theorem total_split (rows : List Row) (inside kept : Row → Bool) : total (rows.filter inside) =
      total ((rows.filter kept).filter inside) + total (rows.filter fun row => inside row && !kept row) := by
  induction rows with
  | nil => simp [total]
  | cons row rest ih =>
    by_cases here : inside row <;> by_cases keep : kept row
    · simp only [total, filter_cons, here, keep, if_true, map_cons, sum_cons] at ih ⊢
      simp only [Bool.not_true, Bool.and_false, Bool.false_eq_true, if_false, ih]
      ring
    · simp only [total, filter_cons, here, keep, if_true, map_cons, sum_cons] at ih ⊢
      simp only [Bool.not_false, Bool.and_true, Bool.false_eq_true, if_false, if_true, map_cons,
        sum_cons, ih]
      ring
    · simpa [filter_cons, here, keep] using ih
    · simpa [filter_cons, here, keep] using ih

theorem total_flatMap (windows : List Int) (made : Int → List Row) (inside : Row → Bool) :
    total ((windows.flatMap made).filter inside) =
      (windows.map fun window => total ((made window).filter inside)).sum := by
  induction windows with
  | nil => rfl
  | cons window rest ih =>
    rw [flatMap_cons, filter_append, total_append, ih, map_cons, sum_cons]

/-- An increase over a range is the sum of the raw points in it exactly where no series is over
the cap and what passes dated into the range is what retention removed from it. -/
theorem increase_is_raw_sum (parse : String → Option ℚ) (measure : String) (rows : List Row)
    (held : rows.Perm (stored format digest projectId raw kept passes bucketMs))
    (points : ∀ row ∈ raw, RawCounter row) (positive : 0 < bucketMs) (start stop : Int) :
    (increase parse measure rows start stop).map counted = .ok (total (raw.filter (inRange start stop))) ↔
      Fits ∅ (rows.filter (inRange start stop)) ∧
        rolledInto raw passes bucketMs start stop = removed raw kept start stop := by
  have passed := fun window => @downsample_raw format digest bucketMs (windowPoints raw bucketMs window) projectId
    (fun row inside => points row (List.mem_of_mem_filter inside)) positive start stop
  have each : ∀ row ∈ rows, row.kind = "metric-point" → Delta row := by
    intro row inside _
    rcases List.mem_append.mp (held.mem_iff.mp inside) with sent | made
    · exact (points row (List.mem_of_mem_filter sent)).toDelta
    · obtain ⟨window, -, made⟩ := List.mem_flatMap.mp made
      exact (passed window).1 row made
  have sums : total ((stored format digest projectId raw kept passes bucketMs).filter (inRange start stop)) =
      total ((raw.filter kept).filter (inRange start stop)) + rolledInto raw passes bucketMs start stop := by
    rw [stored, List.filter_append, total_append, total_flatMap, rolledInto]
    simp only [(passed _).2]
  rw [increase_delta start stop each, total_split raw (inRange start stop) kept]
  have perm : total (rows.filter (inRange start stop)) =
      total ((stored format digest projectId raw kept passes bucketMs).filter (inRange start stop)) :=
    ((held.filter _).map valueOf).sum_eq
  rw [perm, sums]
  exact and_congr_right fun _ => add_right_inj _

end

def hits (eventId : Id) (occurredAt : Int) (value : ℚ) : Row :=
  Row.new eventId "metric-point" "hits" occurredAt
    |>.withProperty "metric_kind" (.text "counter") "client"
    |>.withProperty "temporality" (.text "delta") "client"
    |>.withProperty "value" (.float value) "client"

theorem rawCounter_hits (eventId : Id) (occurredAt : Int) (held : ℚ) : RawCounter (hits eventId occurredAt held) := by
  have bounds : value (hits eventId occurredAt held) "histogram_bounds" = none := by
    simp [hits]
    rfl
  have resolution : (hits eventId occurredAt held).properties.get? "rollup_resolution_ms" = none := by
    simp [hits, Row.withProperty, Row.new, get?_insert]
    rfl
  exact {
    delta := by simp [text, hits]
    valued := by simp [number, hits]
    kind := rfl
    counter := by simp [text, hits]
    raw := resolution
    plain := by simp [text, bounds] }

/-- A range with no window that was rolled up behind it. -/
theorem increase_is_raw_sum_early :
    (increase (fun _ => none) "m" (stored (fun _ => "") lastBytes 0 [hits 1 5 3, hits 2 65 4] (fun _ => true) [60] 60)
      0 120).map counted = .ok (total ([hits 1 5 3, hits 2 65 4].filter (inRange 0 120))) ↔
      Fits ∅ ((stored (fun _ => "") lastBytes 0 [hits 1 5 3, hits 2 65 4] (fun _ => true) [60] 60).filter
        (inRange 0 120)) ∧ rolledInto [hits 1 5 3, hits 2 65 4] [60] 60 0 120 =
          removed [hits 1 5 3, hits 2 65 4] (fun _ => true) 0 120 :=
  increase_is_raw_sum (fun _ => "") lastBytes 0 [hits 1 5 3, hits 2 65 4] (fun _ => true) [60] 60 (fun _ => none)
    "m" _ (.refl _) (by
      intro row inside
      simp only [List.mem_cons, List.not_mem_nil, or_false] at inside
      rcases inside with rfl | rfl <;> exact rawCounter_hits _ _ _) (by decide) 0 120

/-- One point of 3 and the rollup of its window are both in a range of two windows: 6. -/
theorem increase_counts_twice :
    (increase (fun _ => none) "m" (stored (fun _ => "") lastBytes 0 [hits 1 5 3] (fun _ => true) [0] 60)
      0 120).toOption.map counted = some 6 ∧ total ([hits 1 5 3].filter (inRange 0 120)) = 3 := by
  decide +kernel

end TallyOwl.Rollup
