import Mathlib.Data.List.Sort
import Mathlib.Data.String.Basic
import TallyOwl.Lib.OrderedMap
import TallyOwl.Wire.Item

/-! Metric points of one series that become one point before a batch is queued (`series.rs`,
`tallyowl-compat`). The text and the sum of floats are parameters, and a count is a `u64`. -/
open List

namespace TallyOwl.Wire
open Lib

def decimalText (exponent mantissa : Int) : String :=
  if exponent = 0 then toString mantissa
  else if (checkDecimal exponent).toOption = none then s!"{mantissa}e{exponent}"
  else
    let digits := toString mantissa.natAbs
    let sign := if mantissa < 0 then "-" else ""
    if 0 < exponent then sign ++ digits ++ String.ofList (List.replicate exponent.toNat '0')
    else
      let scale := (-exponent).toNat
      if digits.length ≤ scale then
        sign ++ "0." ++ String.ofList (List.replicate (scale - digits.length) '0') ++ digits
      else
        let split := digits.length - scale
        sign ++ String.ofList (digits.toList.take split) ++ "." ++ String.ofList (digits.toList.drop split)

variable (floatText : UInt64 → String)

def Value.toDisplay : Value → String
  | .null => ""
  | .boolean v => if v then "true" else "false"
  | .integer v => toString v
  | .unsigned v => toString v
  | .float bits => floatText bits
  | .decimal exponent mantissa => decimalText exponent mantissa
  | .text v => v
  | .bytes v => hex v

def TypedValueKind.debug : TypedValueKind → String
  | .null => "Null"
  | .bool => "Bool"
  | .int => "Int"
  | .uint => "Uint"
  | .float => "Float"
  | .decimal => "Decimal"
  | .text => "Text"
  | .bytes => "Bytes"

def labelText (label : Property) : String :=
  match read label.value with
  | .ok value => value.toDisplay floatText
  | .error _ => label.value.kind.debug

def MetricKind.name : MetricKind → String
  | .counter => "counter"
  | .gauge => "gauge"
  | .histogram => "histogram"

/-- The identity of one series: its kind and its labels in order. -/
def seriesKeyOf (kind : MetricKind) (labels : List Property) : String :=
  let texts := labels.map fun label => (label.key, labelText floatText label)
  let sorted := texts.insertionSort fun a b => a.1 < b.1 ∨ a.1 = b.1 ∧ a.2 ≤ b.2
  sorted.foldl (fun key label => key ++ "\u0001" ++ label.1 ++ "\u0002" ++ label.2) kind.name

def seriesKey (point : MetricPointPayload) : String := seriesKeyOf floatText point.metricKind point.labels

end TallyOwl.Wire

namespace TallyOwl.Collector
open Lib Wire

def Temporality.name : Temporality → String
  | .delta => "delta"
  | .cumulative => "cumulative"

/-- `checked_add` on a `u64`. -/
def checkedAdd (a b : Nat) : Option Nat := if a + b < 2 ^ 64 then some (a + b) else none

structure Floats where
  text : UInt64 → String
  add : UInt64 → UInt64 → UInt64

variable (floats : Floats)

def mergeKey (point : MetricPointPayload) : String :=
  seriesKey floats.text point ++ "\u0003" ++ Temporality.name point.temporality ++ point.metricName

def addHistograms (a b : HistogramValue) : Option HistogramValue := do
  guard (a.bounds = b.bounds ∧ a.counts.length = b.counts.length)
  let counts ← (a.counts.zip b.counts).mapM fun x => checkedAdd x.1 x.2
  let count ← checkedAdd a.count b.count
  return { count, sum := floats.add a.sum b.sum, bounds := a.bounds, counts }

/-- Combine two points of one series, or report that they cannot combine. -/
def combine (held incoming : MetricPointPayload) : Option MetricPointPayload :=
  let later := if held.endAt ≤ incoming.endAt then incoming else held
  let spanned := { later with
    startAt := min held.startAt incoming.startAt
    endAt := max held.endAt incoming.endAt }
  match incoming.temporality, held.histogramValue, incoming.histogramValue with
  | .delta, some a, some b => (addHistograms floats a b).map fun sum => { spanned with histogramValue := some sum }
  | .delta, none, none =>
      some { spanned with
        numberValue := some (floats.add (held.numberValue.getD 0) (incoming.numberValue.getD 0)) }
  | .cumulative, some a, some b => if a.bounds = b.bounds then some spanned else none
  | .cumulative, none, none => some spanned
  | _, _, _ => none

/-- The merged batch so far, and the place of the first item of each series. -/
structure Merging where
  slotOf : OrderedMap String Nat
  out : List TelemetryItem

def setPoint (item : TelemetryItem) (point : MetricPointPayload) : TelemetryItem :=
  { item with metricPoint := some point }

def Merging.push (m : Merging) (item : TelemetryItem) : Merging := { m with out := m.out ++ [item] }

def mergeItem (m : Merging) (item : TelemetryItem) : Merging :=
  match item.metricPoint with
  | none => m.push item
  | some incoming =>
      match m.slotOf.get? (mergeKey floats incoming) with
      | none => ⟨m.slotOf.insert (mergeKey floats incoming) m.out.length, m.out ++ [item]⟩
      | some slot =>
          match m.out[slot]? with
          | none => m
          | some heldItem =>
              match heldItem.metricPoint with
              | none => m
              | some held =>
                  match combine floats held incoming with
                  | none => m.push item
                  | some combined =>
                      let owner := if held.endAt ≤ incoming.endAt then item else heldItem
                      { m with out := m.out.set slot (setPoint owner combined) }

/-- Merge every compatible metric point in one batch. A batch over the work budget travels as it is. -/
def merge (maxMergePoints : Nat) (items : List TelemetryItem) : List TelemetryItem :=
  let points := items.countP fun i => i.metricPoint.isSome
  if points ≤ 1 ∨ maxMergePoints < points then items
  else (items.foldl (mergeItem floats) ⟨∅, []⟩).out

section

/-- A change to an item that neither reads nor writes its metric point. -/
structure LeavesPoint (f : TelemetryItem → TelemetryItem) : Prop where
  point : ∀ item, (f item).metricPoint = item.metricPoint
  withPoint : ∀ item p, f (setPoint item p) = setPoint (f item) p

variable {floats} {f : TelemetryItem → TelemetryItem}

theorem LeavesPoint.comp {g : TelemetryItem → TelemetryItem} (hf : LeavesPoint f) (hg : LeavesPoint g) :
    LeavesPoint (f ∘ g) where
  point item := (hf.point (g item)).trans (hg.point item)
  withPoint item p := (congrArg f (hg.withPoint item p)).trans (hf.withPoint (g item) p)

def Merging.map (f : TelemetryItem → TelemetryItem) (m : Merging) : Merging := ⟨m.slotOf, m.out.map f⟩

theorem mergeItem_map (leaves : LeavesPoint f) (m : Merging) (item : TelemetryItem) :
    mergeItem floats (m.map f) (f item) = (mergeItem floats m item).map f := by
  unfold mergeItem
  rw [leaves.point]
  cases item.metricPoint with
  | none => simp [Merging.push, Merging.map]
  | some incoming =>
    simp only [Merging.map]
    cases m.slotOf.get? (mergeKey floats incoming) with
    | none => simp
    | some slot =>
      simp only [getElem?_map]
      cases m.out[slot]? with
      | none => rfl
      | some heldItem =>
        simp only [Option.map_some, leaves.point]
        cases heldItem.metricPoint with
        | none => rfl
        | some held =>
          simp only
          cases combine floats held incoming with
          | none => simp [Merging.push]
          | some combined =>
            have owner : setPoint (if held.endAt ≤ incoming.endAt then f item else f heldItem)
                combined = f (setPoint (if held.endAt ≤ incoming.endAt then item else heldItem)
                  combined) := by
              rw [leaves.withPoint]
              split <;> rfl
            simp only [owner, map_set]

theorem merge_map (leaves : LeavesPoint f) (maxMergePoints : Nat) (items : List TelemetryItem) :
    merge floats maxMergePoints (items.map f) = (merge floats maxMergePoints items).map f := by
  have fold : ∀ m : Merging, (items.map f).foldl (mergeItem floats) (m.map f) =
      (items.foldl (mergeItem floats) m).map f := by
    induction items with
    | nil => intro m; rfl
    | cons item rest ih =>
      intro m
      simp only [map_cons, foldl_cons, mergeItem_map leaves, ih]
  have points : (items.map f).countP (fun i => i.metricPoint.isSome) =
      items.countP fun i => i.metricPoint.isSome := by
    simp [countP_map, Function.comp_def, leaves.point]
  simp only [merge, points]
  split
  · rfl
  · exact congrArg Merging.out (fold ⟨∅, []⟩)

@[simp] theorem merge_nil (maxMergePoints : Nat) : merge floats maxMergePoints [] = [] := rfl

end

end TallyOwl.Collector
