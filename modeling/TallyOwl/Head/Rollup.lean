import Mathlib.Data.Rat.Floor
import Std.Data.String.ToInt
import TallyOwl.Head.Aggregate

/-! Rollups (`rollup.rs`): golden signals from spans, and metric downsampling. A float is an
exact number here. The text a float is written as and the 16 bytes of a hash are parameters. -/
namespace TallyOwl.Rollup
open Lib List
open Locate (wrapI64)

inductive Value where
  | null
  | boolean (v : Bool)
  | integer (v : Int)
  | unsigned (v : Nat)
  | float (v : ℚ)
  | decimal (v : String)
  | text (v : String)
  | bytes (v : Bytes)
  deriving DecidableEq

abbrev Properties := OrderedMap String (Value × String)

structure Row where
  eventId : Id
  projectId : Id
  kind : String
  name : String
  occurredAt : Int
  receivedAt : Int
  serviceName : Option String
  properties : Properties

def Row.new (eventId : Id) (kind name : String) (occurredAt : Int) : Row :=
  ⟨eventId, 0, kind, name, occurredAt, occurredAt, none, ∅⟩

def Row.withProperty (row : Row) (key : String) (value : Value) (origin : String) : Row :=
  { row with properties := row.properties.insert key (value, origin) }

/-! The columns of a metric row. -/

section
variable (row : Row) (key : String)

def value : Option Value := (row.properties.get? key).map Prod.fst

def text : Option String :=
  match value row key with
  | some (.text v) => some v
  | _ => none

def integer : Option Int :=
  match value row key with
  | some (.integer v) => some v
  | some (.unsigned v) => some (wrapI64 v)
  | _ => none

def number : Option ℚ :=
  match value row key with
  | some (.float v) => some v
  | some (.integer v) => some v
  | some (.unsigned v) => some v
  | _ => none

end

/-- `as u64` of a float. -/
def toU64 (v : ℚ) : Nat := min (2 ^ 64 - 1) ⌊v⌋.toNat

/-- One part of a list of counts, as `u64::parse` reads it. -/
def parseOne (part : List Char) : Nat :=
  let digits := if part.head? = some '+' then part.tail else part
  if digits ≠ [] ∧ digits.all Char.isDigit then
    let n := digits.foldl (fun n c => n * 10 + (c.toNat - '0'.toNat)) 0
    if n < 2 ^ 64 then n else 0
  else 0

def parseUnsigned (text : String) : List Nat :=
  ((text.toList.splitOn ',').filter (· ≠ [])).map parseOne

def joinUnsigned (values : List Nat) : String := String.intercalate "," (values.map toString)

/-- The fields of a metric point that a producer's label cannot take the name of. -/
def metricFields : List String :=
  ["metric_name", "metric_kind", "temporality", "monotonic", "value", "unit", "start_at", "end_at",
    "series_key", "histogram_count", "histogram_sum", "histogram_bounds", "histogram_counts",
    "exemplar_trace_id"]

def markers : List String := ["rollup_resolution_ms", "rollup_points", "derived"]

/-- The properties of a metric row that are labels rather than the point's own fields. -/
def labelProperties (row : Row) : List (String × Value) :=
  (row.properties.entries.filter fun entry => entry.1 ∉ metricFields ∧ entry.1 ∉ markers).map fun entry =>
    (entry.1, entry.2.1)

def requests : String := "tallyowl_service_operation_requests_total"

def errors : String := "tallyowl_service_operation_errors_total"

def duration : String := "tallyowl_service_operation_duration_seconds"

def durationBounds : List ℚ :=
  [1/1000, 5/1000, 1/100, 25/1000, 5/100, 1/10, 1/4, 1/2, 1, 5/2, 5, 10, 30]

def windowOf (bucketMs moment : Int) : Int := moment - moment % bucketMs

/-- One service operation inside one window: its window, its service and its name. -/
abbrev Key := Int ×ₗ String ×ₗ String

structure Signals where
  requests : Nat
  errors : Nat
  counts : List Nat
  sum : ℚ
  deriving DecidableEq

/-- What has been rolled up of one series inside one window. -/
structure Rolled where
  kind : String
  unit : Option String
  labels : List (String × Value)
  value : ℚ
  layout : Option String
  counts : List Nat
  count : Nat
  sum : ℚ
  mixedLayouts : Bool
  rolledUp : Nat
  deriving DecidableEq

/-- What one downsample pass produced, and what it left alone. -/
structure Downsampled where
  rows : List Row
  skippedGauges : Nat
  skippedLayouts : Nat

section
variable (format : ℚ → String) (digest : Bytes → Id)

def display : Value → String
  | .text v => v
  | .integer v => toString v
  | .unsigned v => toString v
  | .float v => format v
  | .boolean v => if v then "true" else "false"
  | .decimal v => v
  | .bytes v => hex v
  | .null => ""

def joinFloats (values : List ℚ) : String := String.intercalate "," (values.map format)

/-- What a derived row is named by: the metric and the end of the window. -/
def derivedText (name : String) (occurredAt : Int) : String := s!"{name}\x01{occurredAt}"

def derivedId (name : String) (occurredAt : Int) : Id := digest (textBytes (derivedText name occurredAt))

/-- The series identity of a derived row, from the labels it carries. -/
def derivedSeriesKey (row : Row) : String :=
  (labelProperties row).foldl (fun key label => key ++ s!"\x01{label.1}\x02{display format label.2}")
    ((text row "metric_kind").getD "")

def metricRow (name : String) (occurredAt : Int) (projectId : Id) (kind : String) : Row :=
  { Row.new (derivedId digest name occurredAt) "metric-point" name occurredAt with
    projectId := projectId
    receivedAt := occurredAt }
    |>.withProperty "metric_name" (.text name) "collector"
    |>.withProperty "metric_kind" (.text kind) "collector"
    |>.withProperty "derived" (.text "tallyowl-rollup") "collector"
    |>.withProperty "temporality" (.text "delta") "collector"

def Row.keyed (row : Row) : Row :=
  row.withProperty "series_key" (.text (derivedSeriesKey format row)) "collector"

def counterRow (name : String) (bucket : Int) (service operation : String) (endAt : Int) (value : ℚ)
    (projectId : Id) : Row :=
  let row := metricRow digest name endAt projectId "counter"
    |>.withProperty "monotonic" (.boolean true) "collector"
    |>.withProperty "value" (.float value) "collector"
    |>.withProperty "start_at" (.integer bucket) "collector"
    |>.withProperty "end_at" (.integer endAt) "collector"
    |>.withProperty "service" (.text service) "collector"
    |>.withProperty "operation" (.text operation) "collector"
  { row with serviceName := some service }.keyed format

def histogramRow (bucket : Int) (service operation : String) (endAt : Int) (signals : Signals)
    (projectId : Id) : Row :=
  let row := metricRow digest duration endAt projectId "histogram"
    |>.withProperty "monotonic" (.boolean false) "collector"
    |>.withProperty "unit" (.text "s") "collector"
    |>.withProperty "start_at" (.integer bucket) "collector"
    |>.withProperty "end_at" (.integer endAt) "collector"
    |>.withProperty "histogram_bounds" (.text (joinFloats format durationBounds)) "collector"
    |>.withProperty "histogram_counts" (.text (joinUnsigned signals.counts)) "collector"
    |>.withProperty "histogram_count" (.unsigned signals.requests) "collector"
    |>.withProperty "histogram_sum" (.float signals.sum) "collector"
    |>.withProperty "service" (.text service) "collector"
    |>.withProperty "operation" (.text operation) "collector"
  { row with serviceName := some service }.keyed format

/-- Count one span into its window. A row that is not a span contributes nothing. -/
def addSpan (bucketMs : Int) (windows : OrderedMap Key Signals) (row : Row) : OrderedMap Key Signals :=
  if row.kind ≠ "span" then windows
  else
    match number row "duration_ms" with
    | none => windows
    | some durationMs =>
        let key : Key := toLex (windowOf bucketMs row.occurredAt,
          toLex (row.serviceName.getD "unknown", (text row "operation").getD row.name))
        let held := (windows.get? key).getD ⟨0, 0, durationBounds.map fun _ => 0, 0⟩
        let seconds := durationMs / 1000
        windows.insert key {
          requests := held.requests + 1
          errors := if text row "status" = some "error" then held.errors + 1 else held.errors
          counts := held.counts.zipWith (fun count bound => if seconds ≤ bound then count + 1 else count)
            durationBounds
          sum := held.sum + seconds }

def signalRows (bucketMs : Int) (projectId : Id) (entry : Key × Signals) : List Row :=
  let bucket := (ofLex entry.1).1
  let service := (ofLex (ofLex entry.1).2).1
  let operation := (ofLex (ofLex entry.1).2).2
  let signals := entry.2
  let stop := bucket + bucketMs
  [counterRow format digest requests bucket service operation stop signals.requests projectId,
    counterRow format digest errors bucket service operation stop signals.errors projectId,
    histogramRow format digest bucket service operation stop signals projectId]

def goldenSignals (rows : List Row) (bucketMs : Int) (projectId : Id) : List Row :=
  if bucketMs ≤ 0 then []
  else (rows.foldl (addSpan bucketMs) ∅).entries.flatMap (signalRows format digest bucketMs projectId)

structure Pass where
  windows : OrderedMap Key Rolled
  skippedGauges : Nat
  skippedLayouts : Nat

/-- Add a histogram point to what is rolled up: `none` where its layout is another. -/
def Rolled.addHistogram (entry : Rolled) (layout : String) (row : Row) : Option Rolled :=
  let counts := parseUnsigned ((text row "histogram_counts").getD "")
  let merged := match entry.layout with
    | none => some { entry with layout := some layout, counts := counts }
    | some held =>
        if held = layout then
          some { entry with counts := entry.counts.mapIdx fun index count =>
            match counts[index]? with
            | some more => min (2 ^ 64 - 1) (count + more)
            | none => count }
        else none
  merged.map fun entry => { entry with
    count := (entry.count + toU64 ((number row "histogram_count").getD 0)) % 2 ^ 64
    sum := entry.sum + (number row "histogram_sum").getD 0 }

def rollPoint (bucketMs : Int) (pass : Pass) (row : Row) : Pass :=
  if row.kind ≠ "metric-point" then pass
  -- a rollup is never rolled up again
  else if row.properties.get? "rollup_resolution_ms" ≠ none then pass
  else
    let kind := (text row "metric_kind").getD ""
    if kind = "gauge" then { pass with skippedGauges := pass.skippedGauges + 1 }
    else if text row "temporality" ≠ some "delta" then pass
    else
      let name := (text row "metric_name").getD row.name
      let series := (text row "series_key").getD ""
      let endAt := (integer row "end_at").getD row.occurredAt
      let key : Key := toLex (windowOf bucketMs endAt, toLex (name, series))
      let entry := (pass.windows.get? key).getD
        ⟨"", none, labelProperties row, 0, none, [], 0, 0, false, 0⟩
      let added := match text row "histogram_bounds" with
        | none => some { entry with value := entry.value + (number row "value").getD 0 }
        | some layout => entry.addHistogram layout row
      match added with
      | none => { pass with
          windows := pass.windows.insert key { entry with mixedLayouts := true }
          skippedLayouts := pass.skippedLayouts + 1 }
      | some entry => { pass with
          windows := pass.windows.insert key { entry with
            kind := kind
            unit := text row "unit"
            rolledUp := entry.rolledUp + 1 } }

def Rolled.intoRow (rolled : Rolled) (name : String) (startAt endAt : Int) (projectId : Id) : Row :=
  let row := metricRow digest name endAt projectId rolled.kind
    |>.withProperty "start_at" (.integer startAt) "collector"
    |>.withProperty "end_at" (.integer endAt) "collector"
    |>.withProperty "rollup_resolution_ms" (.integer (endAt - startAt)) "collector"
    |>.withProperty "rollup_points" (.unsigned rolled.rolledUp) "collector"
  let row := match rolled.unit with
    | some unit => row.withProperty "unit" (.text unit) "collector"
    | none => row
  let row := rolled.labels.foldl (fun row label => row.withProperty label.1 label.2 "client") row
  let row := match rolled.layout with
    | none => row.withProperty "value" (.float rolled.value) "collector"
    | some layout => row
        |>.withProperty "histogram_bounds" (.text layout) "collector"
        |>.withProperty "histogram_counts" (.text (joinUnsigned rolled.counts)) "collector"
        |>.withProperty "histogram_count" (.unsigned rolled.count) "collector"
        |>.withProperty "histogram_sum" (.float rolled.sum) "collector"
  row.keyed format

/-- The row of a window, where its layout did not change inside it. -/
def windowRow (bucketMs : Int) (projectId : Id) (entry : Key × Rolled) : Option Row :=
  if entry.2.mixedLayouts then none
  else
    let bucket := (ofLex entry.1).1
    some (entry.2.intoRow format digest (ofLex (ofLex entry.1).2).1 bucket (bucket + bucketMs) projectId)

def downsample (rows : List Row) (bucketMs : Int) (projectId : Id) : Downsampled :=
  if bucketMs ≤ 0 then ⟨[], 0, 0⟩
  else
    let pass := rows.foldl (rollPoint bucketMs) ⟨∅, 0, 0⟩
    ⟨pass.windows.entries.filterMap (windowRow format digest bucketMs projectId),
      pass.skippedGauges, pass.skippedLayouts⟩

end

/-! The identifier of a derived row. -/

theorem no_mark_in_number (n : Int) : Char.ofNat 1 ∉ (toString n).toList := by
  have digits : ∀ k : Nat, Char.ofNat 1 ∉ k.repr.toList := by
    intro k inside
    rw [Nat.repr_eq_ofList_toDigits, String.toList_ofList] at inside
    have digit := Nat.isDigit_of_mem_toDigits (by omega) (by omega) inside
    revert digit
    decide
  change Char.ofNat 1 ∉ n.repr.toList
  rw [Int.repr_eq_if]
  split
  · exact digits _
  · rw [String.toList_append, mem_append]
    rintro (minus | inside)
    · revert minus
      decide
    · exact digits _ inside

theorem last_stretch {α : Type} [DecidableEq α] {mark : α} {before last : List α} (clear : mark ∉ last) :
    ((before ++ mark :: last).reverse.takeWhile (· ≠ mark)).reverse = last := by
  have each : ∀ a ∈ last.reverse, decide (a ≠ mark) = true := by
    intro a inside
    refine decide_eq_true ?_
    rintro rfl
    exact clear (mem_reverse.mp inside)
  rw [reverse_append, reverse_cons, append_assoc, takeWhile_append_of_pos each]
  simp

theorem derivedText_inj {name other : String} {stop last : Int} :
    derivedText name stop = derivedText other last ↔ name = other ∧ stop = last := by
  refine ⟨fun same => ?_, fun ⟨names, stops⟩ => by rw [names, stops]⟩
  have lists : name.toList ++ Char.ofNat 1 :: (toString stop).toList =
      other.toList ++ Char.ofNat 1 :: (toString last).toList := by
    have mark : (toString "\x01").toList = [Char.ofNat 1] := by decide
    have inner := congrArg String.toList same
    simp only [derivedText, String.toList_append, mark, append_assoc, cons_append,
      nil_append] at inner
    exact inner
  have numbers : (toString stop).toList = (toString last).toList := by
    rw [← last_stretch (no_mark_in_number stop), lists, last_stretch (no_mark_in_number last)]
  rw [numbers] at lists
  exact ⟨String.toList_injective (append_cancel_right lists),
    Int.repr_injective (String.toList_injective numbers)⟩

section
variable {format : ℚ → String} {digest : Bytes → Id} {row : Row}

/-- The id of a row, its kind, and what a derived row is named by. -/
def stamp (row : Row) : Id × String × String × Int := (row.eventId, row.kind, row.name, row.occurredAt)

@[simp] theorem stamp_withProperty (key : String) (value : Value) (origin : String) :
    stamp (row.withProperty key value origin) = stamp row := rfl

@[simp] theorem stamp_keyed : stamp (row.keyed format) = stamp row := rfl

@[simp] theorem stamp_labels (labels : List (String × Value)) :
    stamp (labels.foldl (fun row label => row.withProperty label.1 label.2 "client") row) = stamp row := by
  induction labels generalizing row with
  | nil => rfl
  | cons label rest ih => rw [foldl_cons, ih, stamp_withProperty]

@[simp] theorem stamp_metricRow (name : String) (occurredAt : Int) (projectId : Id) (kind : String) :
    stamp (metricRow digest name occurredAt projectId kind) =
      (derivedId digest name occurredAt, "metric-point", name, occurredAt) := rfl

@[simp] theorem stamp_counterRow (name : String) (bucket : Int) (service operation : String) (endAt : Int)
    (value : ℚ) (projectId : Id) :
    stamp (counterRow format digest name bucket service operation endAt value projectId) =
      (derivedId digest name endAt, "metric-point", name, endAt) := rfl

@[simp] theorem stamp_histogramRow (bucket : Int) (service operation : String) (endAt : Int)
    (signals : Signals) (projectId : Id) :
    stamp (histogramRow format digest bucket service operation endAt signals projectId) =
      (derivedId digest duration endAt, "metric-point", duration, endAt) := rfl

@[simp] theorem stamp_intoRow (rolled : Rolled) (name : String) (startAt endAt : Int) (projectId : Id) :
    stamp (rolled.intoRow format digest name startAt endAt projectId) =
      (derivedId digest name endAt, "metric-point", name, endAt) := by
  unfold Rolled.intoRow
  cases rolled.unit with
  | none => cases rolled.layout <;> simp
  | some unit => cases rolled.layout <;> simp

inductive Derived (format : ℚ → String) (digest : Bytes → Id) : Row → Prop where
  | signal {rows : List Row} {bucketMs : Int} {projectId : Id} {row : Row}
      (inside : row ∈ goldenSignals format digest rows bucketMs projectId) : Derived format digest row
  | rolledUp {rows : List Row} {bucketMs : Int} {projectId : Id} {row : Row}
      (inside : row ∈ (downsample format digest rows bucketMs projectId).rows) : Derived format digest row

theorem Derived.named (derived : Derived format digest row) :
    row.eventId = derivedId digest row.name row.occurredAt := by
  have stamped : ∃ name stop, stamp row = (derivedId digest name stop, "metric-point", name, stop) := by
    cases derived with
    | signal inside =>
      unfold goldenSignals at inside
      split at inside
      · cases inside
      · obtain ⟨entry, -, inside⟩ := mem_flatMap.mp inside
        simp only [signalRows, mem_cons, not_mem_nil, or_false] at inside
        rcases inside with rfl | rfl | rfl
        · exact ⟨_, _, stamp_counterRow ..⟩
        · exact ⟨_, _, stamp_counterRow ..⟩
        · exact ⟨_, _, stamp_histogramRow ..⟩
    | rolledUp inside =>
      unfold downsample at inside
      split at inside
      · cases inside
      · obtain ⟨entry, -, made⟩ := mem_filterMap.mp inside
        unfold windowRow at made
        split at made
        · cases made
        · cases made
          exact ⟨_, _, stamp_intoRow ..⟩
  obtain ⟨name, stop, stamped⟩ := stamped
  simp only [stamp, Prod.mk.injEq] at stamped
  obtain ⟨id, -, rfl, rfl⟩ := stamped
  exact id

/-- Two derived rows have different ids exactly where they are of another metric or another
window end, where the hash does not collide on what they are named by. -/
theorem derived_ids_differ (format : ℚ → String) (digest : Bytes → Id) (first second : Row)
    (one : Derived format digest first) (other : Derived format digest second)
    (injective : derivedId digest first.name first.occurredAt = derivedId digest second.name second.occurredAt →
      textBytes (derivedText first.name first.occurredAt) = textBytes (derivedText second.name second.occurredAt)) :
    first.eventId ≠ second.eventId ↔ first.name ≠ second.name ∨ first.occurredAt ≠ second.occurredAt := by
  rw [one.named, other.named, ← not_and_or, not_iff_not]
  constructor
  · intro same
    exact derivedText_inj.mp (Cbor.textBytes_injective (injective same))
  · rintro ⟨names, stops⟩
    rw [names, stops]

end

def spanOf (eventId : Id) (service : String) (occurredAt : Int) : Row :=
  { Row.new eventId "span" "GET" occurredAt with serviceName := some service }
    |>.withProperty "duration_ms" (.float 20) "client"

def lastBytes (bytes : Bytes) : Id := Id.ofBytes (bytes.drop (bytes.length - 16))

/-- Signals of one service operation, in two windows. -/
theorem derived_ids_differ_windows : ∃ first second : Row,
    first ∈ goldenSignals (fun _ => "") lastBytes [spanOf 1 "cart" 5] 60 0 ∧
      second ∈ goldenSignals (fun _ => "") lastBytes [spanOf 2 "cart" 65] 60 0 ∧
      (first.eventId ≠ second.eventId ↔ first.name ≠ second.name ∨ first.occurredAt ≠ second.occurredAt) := by
  have ran : (goldenSignals (fun _ => "") lastBytes [spanOf 1 "cart" 5] 60 0).any (fun first =>
      (goldenSignals (fun _ => "") lastBytes [spanOf 2 "cart" 65] 60 0).any fun second =>
        first.eventId ≠ second.eventId) = true := by
    decide +kernel
  obtain ⟨first, one, rest⟩ := List.any_eq_true.mp ran
  obtain ⟨second, other, apart⟩ := List.any_eq_true.mp rest
  refine ⟨first, second, one, other, derived_ids_differ _ lastBytes first second (.signal one) (.signal other) ?_⟩
  intro same
  rw [← (Derived.signal one).named, ← (Derived.signal other).named] at same
  exact absurd same (of_decide_eq_true apart)

/-- Two services in one window: the rows of one metric are named by one text, and have one id. -/
theorem derived_ids_collide : ∃ first second : Row,
    first ∈ goldenSignals (fun _ => "") lastBytes [spanOf 1 "cart" 5, spanOf 2 "search" 6] 60 0 ∧
      second ∈ goldenSignals (fun _ => "") lastBytes [spanOf 1 "cart" 5, spanOf 2 "search" 6] 60 0 ∧
      first.serviceName ≠ second.serviceName ∧ first.eventId = second.eventId ∧
      derivedText first.name first.occurredAt = derivedText second.name second.occurredAt := by
  have ran : (goldenSignals (fun _ => "") lastBytes [spanOf 1 "cart" 5, spanOf 2 "search" 6] 60 0).any
      (fun first => (goldenSignals (fun _ => "") lastBytes [spanOf 1 "cart" 5, spanOf 2 "search" 6] 60 0).any
        fun second => first.serviceName ≠ second.serviceName ∧ first.eventId = second.eventId ∧
          derivedText first.name first.occurredAt = derivedText second.name second.occurredAt) = true := by
    decide +kernel
  obtain ⟨first, one, rest⟩ := List.any_eq_true.mp ran
  obtain ⟨second, other, both⟩ := List.any_eq_true.mp rest
  obtain ⟨services, ids, texts⟩ := of_decide_eq_true both
  exact ⟨first, second, one, other, services, ids, texts⟩

end TallyOwl.Rollup
