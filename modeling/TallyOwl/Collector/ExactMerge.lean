import Mathlib.Algebra.Order.Field.Rat
import Mathlib.Data.UInt
import TallyOwl.Collector.SeriesText

/-! The merge of a batch over any kind of number (`series.rs`): over the floats of a wire item it is the merge of
wire items, and over exact numbers nothing that the points of a batch say is lost. -/
namespace TallyOwl.Merge
open Lib Wire List OrderedMap
open Collector (checkedAdd)

structure Histogram (N : Type) where
  count : Nat
  sum : N
  bounds : List N
  counts : List Nat

structure Point (N : Type) where
  metricName : String
  metricKind : MetricKind
  unit : Option String
  description : Option String
  monotonic : Bool
  temporality : Temporality
  startAt : Int
  endAt : Int
  labels : List Property
  numberValue : Option N
  histogramValue : Option (Histogram N)
  exemplarTraceId : Option Bytes

structure Item (ι N : Type) where
  rest : ι
  metricPoint : Option (Point N)

/-- The points of a batch that went away, and whether there were too many to look at. -/
structure MergeReport where
  merged : Nat
  overWorkBudget : Bool
  deriving DecidableEq

section
variable {ι N : Type} [DecidableEq N] [Zero N] (text : UInt64 → String) (add : N → N → N)

def mergeKey (point : Point N) : String :=
  seriesKeyOf text point.metricKind point.labels ++ "\u0003" ++ Collector.Temporality.name point.temporality ++
    point.metricName

def addHistograms (a b : Histogram N) : Option (Histogram N) := do
  guard (a.bounds = b.bounds ∧ a.counts.length = b.counts.length)
  let counts ← (a.counts.zip b.counts).mapM fun x => checkedAdd x.1 x.2
  let count ← checkedAdd a.count b.count
  return { count, sum := add a.sum b.sum, bounds := a.bounds, counts }

def later (held incoming : Point N) : Point N := if held.endAt ≤ incoming.endAt then incoming else held

def earlier (held incoming : Point N) : Point N := if held.endAt ≤ incoming.endAt then held else incoming

def spanned (held incoming : Point N) : Point N :=
  { later held incoming with
    startAt := min held.startAt incoming.startAt
    endAt := max held.endAt incoming.endAt }

/-- Combine two points of one series, or report that they cannot combine. -/
def combine (held incoming : Point N) : Option (Point N) :=
  match incoming.temporality, held.histogramValue, incoming.histogramValue with
  | .delta, some a, some b =>
      (addHistograms add a b).map fun sum => { spanned held incoming with histogramValue := some sum }
  | .delta, none, none =>
      some { spanned held incoming with
        numberValue := some (add (held.numberValue.getD 0) (incoming.numberValue.getD 0)) }
  | .cumulative, some a, some b => if a.bounds = b.bounds then some (spanned held incoming) else none
  | .cumulative, none, none => some (spanned held incoming)
  | _, _, _ => none

structure Merging (ι N : Type) where
  slotOf : OrderedMap String Nat
  out : List (Item ι N)
  merged : Nat

def Merging.slot (m : Merging ι N) (slot : Nat) : Option (Item ι N × Point N) :=
  m.out[slot]?.bind fun item => item.metricPoint.map fun held => (item, held)

/-- The item that stays in a slot: the later reading owns the merged point. -/
def owned (item heldItem : Item ι N) (incoming held combined : Point N) : Item ι N :=
  { if held.endAt ≤ incoming.endAt then item else heldItem with metricPoint := some combined }

def mergePoint (m : Merging ι N) (item : Item ι N) (incoming : Point N) : Merging ι N :=
  match m.slotOf.get? (mergeKey text incoming) with
  | none => ⟨m.slotOf.insert (mergeKey text incoming) m.out.length, m.out ++ [item], m.merged⟩
  | some slot =>
      match m.slot slot with
      | none => m
      | some (heldItem, held) =>
          match combine add held incoming with
          | none => { m with out := m.out ++ [item] }
          | some combined =>
              { m with out := m.out.set slot (owned item heldItem incoming held combined), merged := m.merged + 1 }

def mergeItem (m : Merging ι N) (item : Item ι N) : Merging ι N :=
  match item.metricPoint with
  | none => { m with out := m.out ++ [item] }
  | some incoming => mergePoint text add m item incoming

def merge (maxMergePoints : Nat) (items : List (Item ι N)) : List (Item ι N) × MergeReport :=
  let points := items.countP fun item => item.metricPoint.isSome
  if points ≤ 1 then (items, ⟨0, false⟩)
  else if maxMergePoints < points then (items, ⟨0, true⟩)
  else
    let m := items.foldl (mergeItem text add) ⟨∅, [], 0⟩
    (m.out, ⟨m.merged, false⟩)

end

/-! Over the floats of wire items this is the merge of wire items. -/

section
variable (floats : Collector.Floats)

def ofHistogram (h : HistogramValue) : Histogram UInt64 := ⟨h.count, h.sum, h.bounds, h.counts⟩

def ofPoint (p : MetricPointPayload) : Point UInt64 where
  metricName := p.metricName
  metricKind := p.metricKind
  unit := p.unit
  description := p.description
  monotonic := p.monotonic
  temporality := p.temporality
  startAt := p.startAt
  endAt := p.endAt
  labels := p.labels
  numberValue := p.numberValue
  histogramValue := p.histogramValue.map ofHistogram
  exemplarTraceId := p.exemplarTraceId

def ofItem (item : TelemetryItem) : Item TelemetryItem UInt64 :=
  ⟨{ item with metricPoint := none }, item.metricPoint.map ofPoint⟩

theorem combine_ofPoint (held incoming : MetricPointPayload) : combine floats.add (ofPoint held) (ofPoint incoming) =
    (Collector.combine floats held incoming).map ofPoint := by
  have sums (a b : HistogramValue) : addHistograms floats.add (ofHistogram a) (ofHistogram b) =
      (Collector.addHistograms floats a b).map ofHistogram := by
    unfold addHistograms Collector.addHistograms ofHistogram
    by_cases same : a.bounds = b.bounds ∧ a.counts.length = b.counts.length
    · simp only [guard, same, and_self, if_true]
      cases (a.counts.zip b.counts).mapM fun x => checkedAdd x.1 x.2 with
      | none => rfl
      | some counts => cases checkedAdd a.count b.count <;> rfl
    · simp [guard, same, failure]
  unfold combine Collector.combine spanned later
  have order : (ofPoint held).endAt ≤ (ofPoint incoming).endAt ↔ held.endAt ≤ incoming.endAt := .rfl
  by_cases late : held.endAt ≤ incoming.endAt
  all_goals
    simp only [order, late, if_true, if_false]
    cases way : incoming.temporality <;> cases a : held.histogramValue <;> cases b : incoming.histogramValue
    case delta.some.some x y =>
      simp only [ofPoint, way, a, b, Option.map_some, sums]
      cases Collector.addHistograms floats x y <;> rfl
    case cumulative.some.some x y =>
      by_cases same : x.bounds = y.bounds <;> simp [ofPoint, ofHistogram, way, a, b, same]
    all_goals simp [ofPoint, way, a, b]

theorem mergeItem_ofItem (m : Collector.Merging) (n : Nat) (item : TelemetryItem) : ∃ k,
    mergeItem floats.text floats.add ⟨m.slotOf, m.out.map ofItem, n⟩ (ofItem item) =
      ⟨(Collector.mergeItem floats m item).slotOf, (Collector.mergeItem floats m item).out.map ofItem, k⟩ := by
  unfold mergeItem Collector.mergeItem
  cases carried : item.metricPoint with
  | none =>
    refine ⟨n, ?_⟩
    simp [ofItem, carried, Collector.Merging.push]
  | some incoming =>
    have key : mergeKey floats.text (ofPoint incoming) = Collector.mergeKey floats incoming := rfl
    have point : (ofItem item).metricPoint = some (ofPoint incoming) := congrArg (Option.map ofPoint) carried
    simp only [point, mergePoint, key]
    cases m.slotOf.get? (Collector.mergeKey floats incoming) with
    | none => exact ⟨n, by simp⟩
    | some slot =>
      simp only [Merging.slot, getElem?_map]
      cases m.out[slot]? with
      | none => exact ⟨n, rfl⟩
      | some heldItem =>
        simp only [Option.map_some, Option.bind_some]
        cases held : heldItem.metricPoint with
        | none => exact ⟨n, by simp [ofItem, held]⟩
        | some h =>
          have inside : (ofItem heldItem).metricPoint = some (ofPoint h) := congrArg (Option.map ofPoint) held
          simp only [inside, Option.map_some, combine_ofPoint]
          cases made : Collector.combine floats h incoming with
          | none => exact ⟨n, by simp [Collector.Merging.push]⟩
          | some combined =>
            have owner : owned (ofItem item) (ofItem heldItem) (ofPoint incoming) (ofPoint h) (ofPoint combined) =
                ofItem (Collector.setPoint (if h.endAt ≤ incoming.endAt then item else heldItem) combined) := by
              unfold owned
              by_cases later : h.endAt ≤ incoming.endAt
              · simp [ofPoint, later, ofItem, Collector.setPoint]
              · simp [ofPoint, later, ofItem, Collector.setPoint]
            exact ⟨n + 1, by simp [owner, map_set]⟩

theorem merge_ofItem (maxMergePoints : Nat) (items : List TelemetryItem) :
    (merge floats.text floats.add maxMergePoints (items.map ofItem)).1 =
      (Collector.merge floats maxMergePoints items).map ofItem := by
  have fold (m : Collector.Merging) (n : Nat) : ∃ k, (items.map ofItem).foldl (mergeItem floats.text floats.add)
      ⟨m.slotOf, m.out.map ofItem, n⟩ = ⟨(items.foldl (Collector.mergeItem floats) m).slotOf,
        (items.foldl (Collector.mergeItem floats) m).out.map ofItem, k⟩ := by
    induction items generalizing m n with
    | nil => exact ⟨n, rfl⟩
    | cons item rest ih =>
      obtain ⟨k, step⟩ := mergeItem_ofItem floats m n item
      rw [map_cons, foldl_cons, foldl_cons, step]
      exact ih _ k
  have points : (items.map ofItem).countP (fun item => item.metricPoint.isSome) =
      items.countP fun item => item.metricPoint.isSome := by
    rw [countP_map]
    refine countP_congr fun item _ => ?_
    cases held : item.metricPoint <;> simp [ofItem, held]
  obtain ⟨k, same⟩ := fold ⟨∅, []⟩ 0
  unfold merge Collector.merge
  simp only [points]
  by_cases one : items.countP (fun item => item.metricPoint.isSome) ≤ 1
  · simp [one]
  · by_cases many : maxMergePoints < items.countP fun item => item.metricPoint.isSome
    · simp [one, many]
    · rw [if_neg one, if_neg many, if_neg (not_or.mpr ⟨one, many⟩)]
      exact congrArg Merging.out same

end

/-! What the points of a batch say of each series. -/

section
variable {ι : Type} (text : UInt64 → String)

abbrev Series := String × MetricKind × List Label

def seriesOf (p : Point ℚ) : Series := (p.metricName, p.metricKind, inKeyOrder (labelTexts text p.labels))

def deltaOf (series : Series) (p : Point ℚ) : ℚ :=
  if p.temporality = .delta ∧ seriesOf text p = series then p.numberValue.getD 0 else 0

/-- What a point adds to the delta histograms of one series and one list of bounds. -/
def histogramOf {M : Type} [Zero M] (f : Histogram ℚ → M) (series : Series) (bounds : List ℚ) (p : Point ℚ) : M :=
  if p.temporality = .delta ∧ seriesOf text p = series then
    (p.histogramValue.filter fun h => h.bounds = bounds).elim 0 f
  else 0

/-- A point that says a level, and what a reading is of: a series and a temporality. -/
def Level (p : Point ℚ) : Prop := p.temporality = .cumulative ∨ p.metricKind = .gauge

def pointsOf (items : List (Item ι ℚ)) : List (Point ℚ) := items.filterMap Item.metricPoint

def reading (p : Point ℚ) : Int × Option ℚ × Option (Histogram ℚ) := (p.endAt, p.numberValue, p.histogramValue)

/-- Two points that may become one: they are of one series, no level is added to another, and of two histograms the
earlier has no number beside it. -/
structure Fair (held incoming : Point ℚ) : Prop where
  series : seriesOf text held = seriesOf text incoming
  temporality : held.temporality = incoming.temporality
  level : incoming.temporality = .delta → incoming.metricKind ≠ .gauge
  number : incoming.temporality = .delta → incoming.histogramValue.isSome →
    (earlier held incoming).numberValue.getD 0 = 0

variable {text}

theorem checkedAdd_eq_some {a b c : Nat} : checkedAdd a b = some c ↔ a + b < 2 ^ 64 ∧ a + b = c := by
  unfold checkedAdd
  split_ifs with fits
  · exact ⟨fun same => ⟨fits, Option.some.inj same⟩, fun both => congrArg some both.2⟩
  · exact ⟨nofun, fun both => absurd both.1 fits⟩

theorem mapM_checkedAdd {xs : List (Nat × Nat)} {sums : List Nat}
    (added : xs.mapM (fun x => checkedAdd x.1 x.2) = some sums) : sums = xs.map fun x => x.1 + x.2 := by
  induction xs generalizing sums with
  | nil => simpa using added.symm
  | cons x rest ih =>
    rw [mapM_cons] at added
    obtain ⟨sum, one, added⟩ := Option.bind_eq_some_iff.mp added
    obtain ⟨later, behind, same⟩ := Option.bind_eq_some_iff.mp added
    cases same
    rw [ih behind, map_cons, (checkedAdd_eq_some.mp one).2]

theorem addHistograms_some {a b sum : Histogram ℚ} (added : addHistograms (· + ·) a b = some sum) :
    a.bounds = b.bounds ∧ sum.bounds = a.bounds ∧ sum.count = a.count + b.count ∧ sum.sum = a.sum + b.sum ∧
      ∀ i, sum.counts.getD i 0 = a.counts.getD i 0 + b.counts.getD i 0 := by
  unfold addHistograms at added
  obtain ⟨_, shape, added⟩ := Option.bind_eq_some_iff.mp added
  obtain ⟨counts, each, added⟩ := Option.bind_eq_some_iff.mp added
  obtain ⟨count, total, same⟩ := Option.bind_eq_some_iff.mp added
  cases same
  obtain ⟨bounds, lengths⟩ : a.bounds = b.bounds ∧ a.counts.length = b.counts.length := by
    by_contra other
    simp [guard, other] at shape
  refine ⟨bounds, rfl, (checkedAdd_eq_some.mp total).2.symm, rfl, fun i => ?_⟩
  rw [mapM_checkedAdd each]
  simp only [getD_eq_getElem?_getD, getElem?_map]
  by_cases small : i < a.counts.length
  · have also : i < b.counts.length := lengths ▸ small
    simp [small, also]
  · have also : ¬i < b.counts.length := lengths ▸ small
    simp [not_lt.mp small, not_lt.mp also]

def Adds {M : Type} [Add M] (f : Histogram ℚ → M) : Prop :=
  ∀ a b sum, addHistograms (· + ·) a b = some sum → f sum = f a + f b

theorem adds_bucket (i : Nat) : Adds fun h => h.counts.getD i 0 := fun _ _ _ added => (addHistograms_some added).2.2.2.2 i

theorem adds_count : Adds Histogram.count := fun _ _ _ added => (addHistograms_some added).2.2.1

/-- The point that two fair points become: it is of their series, adds what both add, and of two levels it reads the
later. -/
structure Combined (text : UInt64 → String) (held incoming combined : Point ℚ) : Prop where
  series : seriesOf text combined = seriesOf text held
  temporality : combined.temporality = held.temporality
  endAt : combined.endAt = max held.endAt incoming.endAt
  delta : ∀ series, deltaOf text series combined = deltaOf text series held + deltaOf text series incoming
  histogram : ∀ {M : Type} [AddCommMonoid M] (f : Histogram ℚ → M), Adds f → ∀ series bounds,
    histogramOf text f series bounds combined = histogramOf text f series bounds held + histogramOf text f series bounds incoming
  reading : incoming.temporality = .cumulative →
    reading combined = reading (later held incoming)

theorem combine_some {held incoming combined : Point ℚ} (made : combine (· + ·) held incoming = some combined) :
    (incoming.temporality = .cumulative ∧ combined = spanned held incoming) ∨
    (incoming.temporality = .delta ∧ ∃ a b sum, held.histogramValue = some a ∧ incoming.histogramValue = some b ∧
      addHistograms (· + ·) a b = some sum ∧ combined = { spanned held incoming with histogramValue := some sum }) ∨
    (incoming.temporality = .delta ∧ held.histogramValue = none ∧ incoming.histogramValue = none ∧
      combined = { spanned held incoming with
        numberValue := some (held.numberValue.getD 0 + incoming.numberValue.getD 0) }) := by
  unfold combine at made
  cases way : incoming.temporality <;> cases a : held.histogramValue <;> cases b : incoming.histogramValue <;>
    rw [way, a, b] at made <;> simp only [reduceCtorEq] at made
  case delta.none.none => exact .inr (.inr ⟨rfl, rfl, rfl, (Option.some.inj made).symm⟩)
  case delta.some.some x y =>
    obtain ⟨sum, added, same⟩ := Option.map_eq_some_iff.mp made
    exact .inr (.inl ⟨rfl, x, y, sum, rfl, rfl, added, same.symm⟩)
  case cumulative.none.none => exact .inl ⟨rfl, (Option.some.inj made).symm⟩
  case cumulative.some.some x y =>
    split_ifs at made
    exact .inl ⟨rfl, (Option.some.inj made).symm⟩

theorem Fair.owner {held incoming : Point ℚ} (fair : Fair text held incoming) :
    seriesOf text (spanned held incoming) = seriesOf text held ∧
      (spanned held incoming).temporality = held.temporality := by
  change seriesOf text (later held incoming) = _ ∧ (later held incoming).temporality = _
  unfold later
  split_ifs
  · exact ⟨fair.series.symm, fair.temporality.symm⟩
  · exact ⟨rfl, rfl⟩

theorem reading_spanned (held incoming : Point ℚ) : reading (spanned held incoming) = reading (later held incoming) := by
  have top : max held.endAt incoming.endAt = (later held incoming).endAt := by
    unfold later
    split_ifs with late
    · exact max_eq_right late
    · exact max_eq_left (not_le.mp late).le
  unfold reading spanned
  rw [top]

theorem Fair.combined {held incoming combined : Point ℚ} (fair : Fair text held incoming)
    (made : combine (· + ·) held incoming = some combined) : Combined text held incoming combined := by
  obtain ⟨series, temporality⟩ := fair.owner
  rcases combine_some made with ⟨way, rfl⟩ | ⟨way, a, b, sum, before, behind, added, rfl⟩ | ⟨way, before, behind, rfl⟩
  · have level := fair.temporality.trans way
    refine ⟨series, temporality, rfl, fun _ => ?_, fun _ _ _ _ => ?_, fun _ => reading_spanned held incoming⟩
    · simp [deltaOf, temporality, level, way]
    · simp [histogramOf, temporality, level, way]
  · have level := fair.temporality.trans way
    have number : (spanned held incoming).numberValue.getD 0 =
        held.numberValue.getD 0 + incoming.numberValue.getD 0 := by
      have none := fair.number way (by rw [behind]; rfl)
      change (later held incoming).numberValue.getD 0 = _
      unfold earlier at none
      unfold later
      split_ifs at none ⊢
      · rw [none, zero_add]
      · rw [none, add_zero]
    refine ⟨series, temporality, rfl, fun other => ?_, fun f adds other bounds => ?_, fun cumulative => ?_⟩
    · change (if (spanned held incoming).temporality = .delta ∧ seriesOf text (spanned held incoming) = other then
        (spanned held incoming).numberValue.getD 0 else 0) = _
      rw [number, series, temporality, deltaOf, deltaOf, fair.series, level, way]
      split_ifs <;> simp
    · change (if (spanned held incoming).temporality = .delta ∧ seriesOf text (spanned held incoming) = other then
        ((some sum).filter fun h => h.bounds = bounds).elim 0 f else 0) = _
      obtain ⟨same, kept, -⟩ := addHistograms_some added
      rw [series, temporality, histogramOf, histogramOf, fair.series, level, way, before, behind, Option.filter_some,
        Option.filter_some, Option.filter_some, kept, same]
      by_cases mine : seriesOf text incoming = other
      · by_cases these : b.bounds = bounds
        · simp [mine, these, adds a b sum added]
        · simp [mine, these]
      · simp [mine]
    · rw [way] at cumulative
      cases cumulative
  · have level := fair.temporality.trans way
    refine ⟨series, temporality, rfl, fun other => ?_, fun f adds other bounds => ?_, fun cumulative => ?_⟩
    · change (if (spanned held incoming).temporality = .delta ∧ seriesOf text (spanned held incoming) = other then
        held.numberValue.getD 0 + incoming.numberValue.getD 0 else 0) = _
      rw [series, temporality, deltaOf, deltaOf, fair.series, level, way]
      split_ifs <;> simp
    · have none : (spanned held incoming).histogramValue = none := by
        change (later held incoming).histogramValue = none
        unfold later
        split_ifs
        · exact behind
        · exact before
      change (if (spanned held incoming).temporality = .delta ∧ seriesOf text (spanned held incoming) = other then
        ((spanned held incoming).histogramValue.filter fun h => h.bounds = bounds).elim 0 f else 0) = _
      rw [none, histogramOf, histogramOf, before, behind]
      simp
    · rw [way] at cumulative
      cases cumulative

/-! One item more. -/

def Merging.Slots (m : Merging ι ℚ) : Prop := ∀ key slot, m.slotOf.get? key = some slot → (m.slot slot).isSome

/-- Two points that a batch brings together: the one in the slot of a series, and the next. -/
def Meets (text : UInt64 → String) (m : Merging ι ℚ) (item : Item ι ℚ) (held incoming : Point ℚ) : Prop :=
  item.metricPoint = some incoming ∧ ∃ slot heldItem, m.slotOf.get? (mergeKey text incoming) = some slot ∧
    m.slot slot = some (heldItem, held)

theorem Merging.slot_eq_some {m : Merging ι ℚ} {slot : Nat} {item : Item ι ℚ} {held : Point ℚ} :
    m.slot slot = some (item, held) ↔ m.out[slot]? = some item ∧ item.metricPoint = some held := by
  unfold Merging.slot
  rw [Option.bind_eq_some_iff]
  constructor
  · rintro ⟨i, there, found⟩
    obtain ⟨h, point, same⟩ := Option.map_eq_some_iff.mp found
    obtain ⟨rfl, rfl⟩ := Prod.mk.inj same
    exact ⟨there, point⟩
  · rintro ⟨there, point⟩
    exact ⟨item, there, by rw [point]; rfl⟩

theorem Merging.Slots.push {m : Merging ι ℚ} (slots : m.Slots) (item : Item ι ℚ) (key : String) (slot : Nat)
    (found : m.slotOf.get? key = some slot) : (Merging.slot ⟨m.slotOf, m.out ++ [item], m.merged⟩ slot).isSome := by
  obtain ⟨⟨i, held⟩, there⟩ := Option.isSome_iff_exists.mp (slots key slot found)
  obtain ⟨inside, point⟩ := Merging.slot_eq_some.mp there
  have small : slot < m.out.length := (List.getElem?_eq_some_iff.mp inside).1
  refine Option.isSome_iff_exists.mpr ⟨(i, held), Merging.slot_eq_some.mpr ⟨?_, point⟩⟩
  rw [getElem?_append_left small, inside]

theorem mergeItem_cases {m : Merging ι ℚ} (slots : m.Slots) (item : Item ι ℚ) : (mergeItem text (· + ·) m item).Slots ∧
    (((mergeItem text (· + ·) m item).out = m.out ++ [item] ∧ (mergeItem text (· + ·) m item).merged = m.merged) ∨
      ∃ held incoming combined heldItem before after, Meets text m item held incoming ∧
        combine (· + ·) held incoming = some combined ∧ heldItem.metricPoint = some held ∧
        m.out = before ++ heldItem :: after ∧
        (mergeItem text (· + ·) m item).out = before ++ owned item heldItem incoming held combined :: after ∧
        (mergeItem text (· + ·) m item).merged = m.merged + 1) := by
  unfold mergeItem
  cases carried : item.metricPoint with
  | none => exact ⟨slots.push item, .inl ⟨rfl, rfl⟩⟩
  | some incoming =>
    simp only [mergePoint]
    cases placed : m.slotOf.get? (mergeKey text incoming) with
    | none =>
      refine ⟨fun key slot found => ?_, .inl ⟨rfl, rfl⟩⟩
      rw [get?_insert] at found
      split_ifs at found with same
      · cases found
        refine Option.isSome_iff_exists.mpr ⟨(item, incoming), Merging.slot_eq_some.mpr ⟨?_, carried⟩⟩
        simp
      · exact slots.push item key slot found
    | some slot =>
      obtain ⟨⟨heldItem, held⟩, there⟩ := Option.isSome_iff_exists.mp (slots _ slot placed)
      obtain ⟨inside, point⟩ := Merging.slot_eq_some.mp there
      simp only [there]
      cases made : combine (· + ·) held incoming with
      | none => exact ⟨slots.push item, .inl ⟨rfl, rfl⟩⟩
      | some combined =>
        obtain ⟨small, is⟩ := List.getElem?_eq_some_iff.mp inside
        obtain ⟨before, after, whole, -, set⟩ : ∃ before after, m.out = before ++ m.out[slot] :: after ∧
            before.length = slot ∧ m.out.set slot (owned item heldItem incoming held combined) =
              before ++ owned item heldItem incoming held combined :: after := exists_of_set small
        rw [is] at whole
        refine ⟨fun key other found => ?_, .inr ⟨held, incoming, combined, heldItem, before, after,
          ⟨carried, slot, heldItem, placed, there⟩, made, point, whole, set, rfl⟩⟩
        by_cases same : slot = other
        · subst same
          refine Option.isSome_iff_exists.mpr ⟨(owned item heldItem incoming held combined, combined),
            Merging.slot_eq_some.mpr ⟨?_, rfl⟩⟩
          exact getElem?_set_self small
        · obtain ⟨⟨i, h⟩, held⟩ := Option.isSome_iff_exists.mp (slots key other found)
          obtain ⟨inside, point⟩ := Merging.slot_eq_some.mp held
          refine Option.isSome_iff_exists.mpr ⟨(i, h), Merging.slot_eq_some.mpr ⟨?_, point⟩⟩
          rw [← inside]
          exact getElem?_set_ne same

/-! A whole batch. -/

def FairRun (text : UInt64 → String) : Merging ι ℚ → List (Item ι ℚ) → Prop
  | _, [] => True
  | m, item :: rest =>
      (∀ held incoming combined, Meets text m item held incoming → combine (· + ·) held incoming = some combined →
        Fair text held incoming) ∧ FairRun text (mergeItem text (· + ·) m item) rest

def Latest (C : Point ℚ → Prop) (points : List (Point ℚ)) (p : Point ℚ) : Prop :=
  ∃ before after, points = before ++ p :: after ∧ C p ∧ (∀ q ∈ before, C q → q.endAt ≤ p.endAt) ∧
    ∀ q ∈ after, C q → q.endAt < p.endAt

theorem Latest.append {C : Point ℚ → Prop} {points : List (Point ℚ)} {q p : Point ℚ} (latest : Latest C (points ++ [q]) p) :
    (p = q ∧ ∀ r ∈ points, C r → r.endAt ≤ q.endAt) ∨ (Latest C points p ∧ (C q → q.endAt < p.endAt)) := by
  obtain ⟨before, after, whole, mine, low, less⟩ := latest
  rcases eq_nil_or_concat after with rfl | ⟨inner, last, rfl⟩
  · obtain ⟨rfl, same⟩ := append_inj' whole rfl
    obtain rfl := (List.cons.inj same).1
    exact .inl ⟨rfl, low⟩
  · rw [concat_eq_append, ← cons_append, ← append_assoc] at whole
    obtain ⟨rfl, same⟩ := append_inj' whole rfl
    obtain rfl := (List.cons.inj same).1
    refine .inr ⟨⟨before, inner, rfl, mine, low, fun r inside => less r ?_⟩, less _ ?_⟩
    · rw [concat_eq_append]
      exact mem_append_left _ inside
    · rw [concat_eq_append]
      exact mem_append_right _ (mem_singleton.mpr rfl)

theorem Latest.mine {C : Point ℚ → Prop} {points : List (Point ℚ)} {p : Point ℚ} (latest : Latest C points p) : C p := by
  obtain ⟨-, -, -, mine, -⟩ := latest
  exact mine

structure Levels (text : UInt64 → String) (C : Point ℚ → Prop) : Prop where
  whole : ∀ p q, seriesOf text p = seriesOf text q → p.temporality = q.temporality → (C p ↔ C q)
  level : ∀ p, C p → Level p

def isOther (item : Item ι ℚ) : Bool := item.metricPoint.isNone

structure Keeps (text : UInt64 → String) (items out : List (Item ι ℚ)) : Prop where
  delta : ∀ series, ((pointsOf out).map (deltaOf text series)).sum = ((pointsOf items).map (deltaOf text series)).sum
  histogram : ∀ {M : Type} [AddCommMonoid M] (f : Histogram ℚ → M), Adds f → ∀ series bounds,
    ((pointsOf out).map (histogramOf text f series bounds)).sum = ((pointsOf items).map (histogramOf text f series bounds)).sum
  ends : ∀ r ∈ pointsOf out, ∃ p ∈ pointsOf items, seriesOf text p = seriesOf text r ∧
    p.temporality = r.temporality ∧ r.endAt ≤ p.endAt
  latest : ∀ C, Levels text C → ∀ p, Latest C (pointsOf items) p → ∃ r ∈ pointsOf out,
    seriesOf text r = seriesOf text p ∧ r.temporality = p.temporality ∧ reading r = reading p

theorem Keeps.push {items out : List (Item ι ℚ)} (keeps : Keeps text items out) (item : Item ι ℚ) :
    Keeps text (items ++ [item]) (out ++ [item]) := by
  have points (xs : List (Item ι ℚ)) : pointsOf (xs ++ [item]) = pointsOf xs ++ item.metricPoint.toList := by
    unfold pointsOf
    cases point : item.metricPoint <;> simp [point]
  refine ⟨fun series => ?_, fun f adds series bounds => ?_, fun r inside => ?_, fun C levels p latest => ?_⟩
  · rw [points, points, map_append, map_append, sum_append, sum_append, keeps.delta]
  · rw [points, points, map_append, map_append, sum_append, sum_append, keeps.histogram f adds]
  · rw [points] at inside ⊢
    rcases mem_append.mp inside with old | new
    · obtain ⟨p, there, same⟩ := keeps.ends r old
      exact ⟨p, mem_append_left _ there, same⟩
    · exact ⟨r, mem_append_right _ new, rfl, rfl, le_refl _⟩
  · rw [points] at latest ⊢
    cases point : item.metricPoint with
    | none =>
      rw [point, Option.toList_none, append_nil] at latest
      obtain ⟨r, there, same⟩ := keeps.latest C levels p latest
      exact ⟨r, mem_append_left _ there, same⟩
    | some q =>
      rw [point, Option.toList_some] at latest
      rcases latest.append with ⟨rfl, -⟩ | ⟨before, -⟩
      · exact ⟨p, by simp, rfl, rfl, rfl⟩
      · obtain ⟨r, there, same⟩ := keeps.latest C levels p before
        exact ⟨r, mem_append_left _ there, same⟩

/-- A fair merge keeps what the batch says: of two levels the earlier reading is not the last of any class. -/
theorem Keeps.combine {items before after : List (Item ι ℚ)} {item heldItem : Item ι ℚ} {held incoming combined : Point ℚ}
    (keeps : Keeps text items (before ++ heldItem :: after)) (carried : item.metricPoint = some incoming)
    (point : heldItem.metricPoint = some held) (one : Combined text held incoming combined)
    (fair : Fair text held incoming) :
    Keeps text (items ++ [item]) (before ++ owned item heldItem incoming held combined :: after) := by
  have points (x : Item ι ℚ) (p : Point ℚ) (is : x.metricPoint = some p) :
      pointsOf (before ++ x :: after) = pointsOf before ++ p :: pointsOf after := by
    simp [pointsOf, is]
  have was := points heldItem held point
  have now := points (owned item heldItem incoming held combined) combined rfl
  have more : pointsOf (items ++ [item]) = pointsOf items ++ [incoming] := by simp [pointsOf, carried]
  have sums {M : Type} [AddCommMonoid M] (f : Point ℚ → M) (adds : f combined = f held + f incoming)
      (same : ((pointsOf (before ++ heldItem :: after)).map f).sum = ((pointsOf items).map f).sum) :
      ((pointsOf (before ++ owned item heldItem incoming held combined :: after)).map f).sum =
        ((pointsOf (items ++ [item])).map f).sum := by
    rw [was] at same
    rw [now, more, map_append, map_append, sum_append, sum_append, ← same]
    simp only [map_append, map_cons, sum_append, sum_cons, map_nil, sum_nil, adds, add_zero]
    rw [add_right_comm, add_assoc, add_assoc, add_assoc]
  have stays (r : Point ℚ) (inside : r ∈ pointsOf (before ++ heldItem :: after)) : r = held ∨
      r ∈ pointsOf (before ++ owned item heldItem incoming held combined :: after) := by
    rw [was] at inside
    rw [now]
    simp only [mem_append, mem_cons] at inside ⊢
    tauto
  have made : combined ∈ pointsOf (before ++ owned item heldItem incoming held combined :: after) := by simp [now]
  refine ⟨fun series => sums _ (one.delta series) (keeps.delta series),
    fun f adds series bounds => sums _ (one.histogram f adds series bounds) (keeps.histogram f adds series bounds),
    fun r inside => ?_, fun C levels p latest => ?_⟩
  · rw [now] at inside
    rw [more]
    have old (q : Point ℚ) (there : q ∈ pointsOf (before ++ heldItem :: after)) := keeps.ends q there
    rw [was] at old
    rcases mem_append.mp inside with left | rest
    · obtain ⟨p, there, same⟩ := old r (mem_append_left _ left)
      exact ⟨p, mem_append_left _ there, same⟩
    · rcases mem_cons.mp rest with rfl | right
      · rcases le_total held.endAt incoming.endAt with late | early
        · exact ⟨incoming, by simp, (one.series.trans fair.series).symm, (one.temporality.trans fair.temporality).symm,
            (one.endAt.trans (max_eq_right late)).le⟩
        · obtain ⟨p, there, series, temporality, ends⟩ := old held (by simp)
          exact ⟨p, mem_append_left _ there, series.trans one.series.symm, temporality.trans one.temporality.symm,
            (one.endAt.trans (max_eq_left early)).le.trans ends⟩
      · obtain ⟨p, there, same⟩ := old r (mem_append_right _ (mem_cons_of_mem _ right))
        exact ⟨p, mem_append_left _ there, same⟩
  · rw [more] at latest
    have readsLater (mine : C incoming) : reading combined = reading (later held incoming) := by
      refine one.reading ?_
      rcases levels.level incoming mine with cumulative | gauge
      · exact cumulative
      · cases way : incoming.temporality with
        | cumulative => rfl
        | delta => exact absurd gauge (fair.level way)
    rcases latest.append with ⟨rfl, low⟩ | ⟨earliest, less⟩
    · obtain ⟨q, there, series, temporality, ends⟩ := keeps.ends held (by simp [was])
      have mine := latest.mine
      have whole : C q ↔ C p := levels.whole q p (series.trans fair.series) (temporality.trans fair.temporality)
      have late : held.endAt ≤ p.endAt := ends.trans (low q there (whole.mpr mine))
      refine ⟨combined, made, one.series.trans fair.series, one.temporality.trans fair.temporality, ?_⟩
      rw [readsLater mine, later, if_pos late]
    · obtain ⟨r, there, series, temporality, same⟩ := keeps.latest C levels p earliest
      rcases stays r there with rfl | kept
      · have mine : C incoming := (levels.whole incoming p (fair.series.symm.trans series)
          (fair.temporality.symm.trans temporality)).mpr latest.mine
        have ends : r.endAt = p.endAt := congrArg Prod.fst same
        refine ⟨combined, made, one.series.trans series, one.temporality.trans temporality, ?_⟩
        rw [readsLater mine, later, if_neg (by have := less mine; omega), same]
      · exact ⟨r, kept, series, temporality, same⟩

theorem Keeps.refl (items : List (Item ι ℚ)) : Keeps text items items := by
  refine ⟨fun _ => rfl, fun _ _ _ _ => rfl, fun r inside => ⟨r, inside, rfl, rfl, le_refl _⟩, fun C _ p latest => ?_⟩
  obtain ⟨before, after, whole, -⟩ := latest
  exact ⟨p, by simp [whole], rfl, rfl, rfl⟩

theorem foldl_keeps (rest : List (Item ι ℚ)) {seen : List (Item ι ℚ)} {m : Merging ι ℚ} (slots : m.Slots)
    (keeps : Keeps text seen m.out) (fair : FairRun text m rest) :
    Keeps text (seen ++ rest) (rest.foldl (mergeItem text (· + ·)) m).out := by
  induction rest generalizing seen m with
  | nil => simpa using keeps
  | cons item rest ih =>
    obtain ⟨meets, fair⟩ := fair
    obtain ⟨next, step⟩ := mergeItem_cases slots item
    have one : Keeps text (seen ++ [item]) (mergeItem text (· + ·) m item).out := by
      rcases step with ⟨out, -⟩ | ⟨held, incoming, combined, heldItem, before, after, met, made, point, was, now, -⟩
      · rw [out]
        exact keeps.push item
      · rw [was] at keeps
        rw [now]
        have allowed := meets held incoming combined met made
        exact keeps.combine met.1 point (allowed.combined made) allowed
    have all := ih next one fair
    rwa [append_assoc, singleton_append] at all

theorem foldl_counts (text : UInt64 → String) (items : List (Item ι ℚ)) {m : Merging ι ℚ} (slots : m.Slots) :
    (items.foldl (mergeItem text (· + ·)) m).merged + (items.foldl (mergeItem text (· + ·)) m).out.length =
      m.merged + m.out.length + items.length ∧
    (items.foldl (mergeItem text (· + ·)) m).out.filter isOther = m.out.filter isOther ++ items.filter isOther := by
  induction items generalizing m with
  | nil => simp
  | cons item rest ih =>
    obtain ⟨next, step⟩ := mergeItem_cases slots item
    obtain ⟨counted, others⟩ := ih next
    rw [foldl_cons, counted, others, length_cons, filter_cons]
    rcases step with ⟨out, merged⟩ | ⟨held, incoming, combined, heldItem, before, after, met, -, point, was, now, merged⟩
    · rw [out, merged]
      refine ⟨by simp; omega, ?_⟩
      split_ifs with other <;> simp [filter_append, other]
    · rw [was, now, merged]
      refine ⟨by simp; omega, ?_⟩
      simp [filter_append, isOther, met.1, point, owned]

theorem slots_empty : (⟨∅, [], 0⟩ : Merging ι ℚ).Slots := by
  intro key slot found
  cases found

variable (text)

structure Lossless (items out : List (Item ι ℚ)) : Prop where
  deltas : ∀ series, ((pointsOf out).map (deltaOf text series)).sum = ((pointsOf items).map (deltaOf text series)).sum
  buckets : ∀ series bounds i, ((pointsOf out).map (histogramOf text (fun h => h.counts.getD i 0) series bounds)).sum =
    ((pointsOf items).map (histogramOf text (fun h => h.counts.getD i 0) series bounds)).sum
  counts : ∀ series bounds, ((pointsOf out).map (histogramOf text Histogram.count series bounds)).sum =
    ((pointsOf items).map (histogramOf text Histogram.count series bounds)).sum
  cumulative : ∀ series p, Latest (fun q => seriesOf text q = series ∧ q.temporality = .cumulative) (pointsOf items) p →
    ∃ r ∈ pointsOf out, seriesOf text r = series ∧ r.temporality = .cumulative ∧ reading r = reading p
  gauges : ∀ series p, Latest (fun q => seriesOf text q = series ∧ q.metricKind = .gauge) (pointsOf items) p →
    ∃ r ∈ pointsOf out, seriesOf text r = series ∧ reading r = reading p

theorem Keeps.lossless {items out : List (Item ι ℚ)} (keeps : Keeps text items out) : Lossless text items out := by
  refine ⟨keeps.delta, fun series bounds i => keeps.histogram _ (adds_bucket i) series bounds,
    keeps.histogram _ adds_count, fun series p latest => ?_, fun series p latest => ?_⟩
  · obtain ⟨r, there, same, temporality, reads⟩ := keeps.latest _
      ⟨fun p q same also => by rw [same, also], fun p mine => .inl mine.2⟩ p latest
    exact ⟨r, there, same.trans latest.mine.1, temporality.trans latest.mine.2, reads⟩
  · have kind (p q : Point ℚ) (same : seriesOf text p = seriesOf text q) : p.metricKind = q.metricKind :=
      congrArg (fun series : Series => series.2.1) same
    obtain ⟨r, there, same, -, reads⟩ := keeps.latest _
      ⟨fun p q same _ => by rw [same, kind p q same], fun p mine => .inr mine.2⟩ p latest
    exact ⟨r, there, same.trans latest.mine.1, reads⟩

/-- A merge keeps all but points that became one with others, and where no two became one that may not, it keeps what
they say. -/
theorem merge_keeps (maxMergePoints : Nat) (items : List (Item ι ℚ)) :
    (merge text (· + ·) maxMergePoints items).1.filter isOther = items.filter isOther ∧
    (merge text (· + ·) maxMergePoints items).2.merged + (merge text (· + ·) maxMergePoints items).1.length =
      items.length ∧
    ((items.countP (fun item => item.metricPoint.isSome) ≤ maxMergePoints → FairRun text ⟨∅, [], 0⟩ items) →
      Lossless text items (merge text (· + ·) maxMergePoints items).1) := by
  unfold merge
  by_cases one : items.countP (fun item => item.metricPoint.isSome) ≤ 1
  · simp only [one, if_true]
    exact ⟨trivial, by simp, fun _ => (Keeps.refl items).lossless text⟩
  · by_cases many : maxMergePoints < items.countP fun item => item.metricPoint.isSome
    · simp only [one, many, if_false, if_true]
      exact ⟨trivial, by simp, fun _ => (Keeps.refl items).lossless text⟩
    · simp only [one, many, if_false]
      obtain ⟨counted, others⟩ := foldl_counts text items slots_empty
      refine ⟨by simpa using others, by simpa using counted, fun fair => ?_⟩
      have keeps := foldl_keeps items slots_empty (Keeps.refl []) (fair (not_lt.mp many))
      exact keeps.lossless text

def deltaPoint (kind : MetricKind) (endAt : Int) (value : ℚ) : Point ℚ where
  metricName := "queue_depth_count"
  metricKind := kind
  unit := none
  description := none
  monotonic := false
  temporality := .delta
  startAt := 0
  endAt := endAt
  labels := []
  numberValue := some value
  histogramValue := none
  exemplarTraceId := none

def deltas (kind : MetricKind) : List (Item Nat ℚ) :=
  [⟨0, some (deltaPoint kind 5 3)⟩, ⟨1, some (deltaPoint kind 10 4)⟩]

def noFloats : UInt64 → String := fun _ => ""

theorem merge_keeps_counters : Lossless noFloats (deltas .counter) (merge noFloats (· + ·) 9 (deltas .counter)).1 := by
  refine (merge_keeps noFloats 9 (deltas .counter)).2.2 fun _ => ⟨?_, ?_, trivial⟩
  · rintro held incoming combined ⟨-, slot, heldItem, placed, -⟩
    cases placed
  · rintro held incoming combined ⟨point, slot, heldItem, placed, there⟩ -
    cases point
    change ((∅ : OrderedMap String Nat).insert (mergeKey noFloats (deltaPoint .counter 5 3)) 0).get?
      (mergeKey noFloats (deltaPoint .counter 5 3)) = some slot at placed
    rw [OrderedMap.get?_insert, if_pos rfl] at placed
    cases placed
    cases there
    exact ⟨rfl, rfl, nofun, nofun⟩

/-- Two readings of a gauge, sent as deltas, become their sum. -/
theorem delta_gauges_add :
    Latest (fun q => seriesOf noFloats q = ("queue_depth_count", .gauge, []) ∧ q.metricKind = .gauge)
      (pointsOf (deltas .gauge)) (deltaPoint .gauge 10 4) ∧
    (pointsOf (merge noFloats (· + ·) 9 (deltas .gauge)).1).map reading = [(10, some 7, none)] ∧
    reading (deltaPoint .gauge 10 4) = (10, some 4, none) ∧
    ¬Lossless noFloats (deltas .gauge) (merge noFloats (· + ·) 9 (deltas .gauge)).1 := by
  have held : (deltaPoint .gauge 5 3).endAt ≤ (deltaPoint .gauge 10 4).endAt := by decide
  have summed : combine (· + ·) (deltaPoint .gauge 5 3) (deltaPoint .gauge 10 4) =
      some { deltaPoint .gauge 10 4 with numberValue := some 7 } := by
    rw [← (by norm_num : (3 : ℚ) + 4 = 7)]
    rfl
  have slot : ((∅ : OrderedMap String Nat).insert (mergeKey noFloats (deltaPoint .gauge 5 3)) 0).get?
      (mergeKey noFloats (deltaPoint .gauge 10 4)) = some 0 := by
    rw [OrderedMap.get?_insert]
    exact if_pos rfl
  have merged : (merge noFloats (· + ·) 9 (deltas .gauge)).1 =
      [⟨1, some { deltaPoint .gauge 10 4 with numberValue := some 7 }⟩] := by
    change (mergePoint noFloats (· + ·) ⟨(∅ : OrderedMap String Nat).insert (mergeKey noFloats (deltaPoint .gauge 5 3)) 0,
      [⟨0, some (deltaPoint .gauge 5 3)⟩], 0⟩ ⟨1, some (deltaPoint .gauge 10 4)⟩ (deltaPoint .gauge 10 4)).out = _
    have found : (⟨(∅ : OrderedMap String Nat).insert (mergeKey noFloats (deltaPoint .gauge 5 3)) 0,
      [⟨0, some (deltaPoint .gauge 5 3)⟩], 0⟩ : Merging Nat ℚ).slot 0 =
        some (⟨0, some (deltaPoint .gauge 5 3)⟩, deltaPoint .gauge 5 3) := rfl
    simp only [mergePoint, slot, found, summed]
    simp [owned, held]
  have latest : Latest (fun q => seriesOf noFloats q = ("queue_depth_count", .gauge, []) ∧ q.metricKind = .gauge)
      (pointsOf (deltas .gauge)) (deltaPoint .gauge 10 4) := by
    refine ⟨[deltaPoint .gauge 5 3], [], rfl, ⟨?_, rfl⟩, ?_, nofun⟩
    · simp [seriesOf, deltaPoint, labelTexts, inKeyOrder]
    · simp [held]
  have reads : (pointsOf (merge noFloats (· + ·) 9 (deltas .gauge)).1).map reading = [(10, some 7, none)] := by
    rw [merged]
    rfl
  refine ⟨latest, reads, rfl, fun lossless => ?_⟩
  obtain ⟨r, there, -, same⟩ := lossless.gauges _ _ latest
  have inside := List.mem_map_of_mem (f := reading) there
  rw [reads, same] at inside
  simp [reading, deltaPoint] at inside

end
end TallyOwl.Merge
