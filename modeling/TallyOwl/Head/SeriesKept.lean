import TallyOwl.Collector.SeriesText
import TallyOwl.Head.Project
import TallyOwl.Head.RolledTotals

/-! The key of a series from the point that a producer sends to the row that a pass rolls it up into (`project.rs`,
`rollup.rs`). -/
namespace TallyOwl.SeriesKept
open Lib Rollup List OrderedMap
open Wire (TelemetryItem MetricPointPayload Label bodyOf RunTogether inKeyOrder labelTexts)
open Project (Projector Pair)

section
variable (exact : UInt64 → ℚ)

def exactValue : PropertyValue → Value
  | .null => .null
  | .boolean v => .boolean v
  | .integer v => .integer v
  | .unsigned v => .unsigned v
  | .float bits => .float (exact bits)
  | .decimal v => .decimal v
  | .text v => .text v
  | .bytes v => .bytes v

def rowOf (row : EventRow) : Row where
  eventId := row.eventId
  projectId := row.projectId
  kind := row.kind
  name := row.name
  occurredAt := row.occurredAt
  receivedAt := row.receivedAt
  serviceName := row.serviceName
  properties := .ofList (row.properties.map fun x => (x.1, exactValue exact x.2.1, x.2.2))

end

structure Stored (pr : Projector) (item : TelemetryItem) (point : MetricPointPayload) (row : EventRow) : Prop where
  carried : Project.payload item = .ok (.metricPoint point)
  projected : Project.project pr item = .ok row

/-! The properties of a stored row are a map. -/

section
variable {pr : Projector} {item : TelemetryItem} {point : MetricPointPayload} {row : EventRow}

abbrev Held := OrderedMap String (PropertyValue × String)

def Held.setAll (origin : String) (pairs : List Pair) (held : Held) : Held :=
  pairs.foldl (fun held x => held.insert x.1 (x.2, origin)) held

theorem setProperty_entries (key : String) (v : PropertyValue) (origin : String) (held : Held) :
    Project.setProperty key v origin held.entries = (held.insert key (v, origin)).entries := by
  change _ = insertEntry key (v, origin) held.entries
  induction held.entries with
  | nil => rfl
  | cons x rest ih =>
    rw [Project.setProperty, insertEntry, ih]
    rcases lt_trichotomy key x.1 with low | same | high
    · rw [if_pos low, if_pos low]
    · rw [same, if_neg (lt_irrefl _), if_neg (lt_irrefl _), if_pos rfl, if_neg (lt_irrefl _)]
    · rw [if_neg high.asymm, if_neg high.asymm, if_neg high.ne', if_pos high]

theorem setAll_entries (origin : String) (pairs : List Pair) (held : Held) :
    Project.setAll origin pairs held.entries = (held.setAll origin pairs).entries := by
  unfold Project.setAll Held.setAll
  induction pairs generalizing held with
  | nil => rfl
  | cons x rest ih => rw [foldl_cons, foldl_cons, setProperty_entries, ih]

theorem foldlM_entries {α : Type} {add : Project.Properties → α → Except String Project.Properties}
    (keeps : ∀ (held : Held) a ps, add held.entries a = .ok ps → ∃ next : Held, ps = next.entries) (xs : List α)
    (held : Held) {ps : Project.Properties} (ran : xs.foldlM add held.entries = .ok ps) :
    ∃ next : Held, ps = next.entries := by
  induction xs generalizing held with
  | nil =>
    cases ran
    exact ⟨held, rfl⟩
  | cons x rest ih =>
    rw [foldlM_cons] at ran
    obtain ⟨one, added, later⟩ := Project.bind_eq_ok.mp ran
    obtain ⟨next, rfl⟩ := keeps held x one added
    exact ih next later

theorem properties_of_stored (stored : Stored pr item point row) : ∃ (measured : Held) (derived : List Pair),
    (∀ x ∈ derived, x.1 ∉ metricFields) ∧
    row.properties = ((measured.setAll "client" (Project.metricProperties pr point)).setAll "collector" derived).entries := by
  have projected := stored.projected
  unfold Project.project at projected
  obtain ⟨eventId, -, projected⟩ := Project.bind_eq_ok.mp projected
  obtain ⟨p, carried, projected⟩ := Project.bind_eq_ok.mp projected
  obtain ⟨workspaceId, -, projected⟩ := Project.bind_eq_ok.mp projected
  obtain ⟨projectId, -, projected⟩ := Project.bind_eq_ok.mp projected
  obtain ⟨properties, read, projected⟩ := Project.bind_eq_ok.mp projected
  cases projected
  obtain rfl : .metricPoint point = p := Except.ok.inj (stored.carried.symm.trans carried)
  unfold Project.propertiesOf at read
  obtain ⟨sent, first, read⟩ := Project.bind_eq_ok.mp read
  obtain ⟨measured, second, read⟩ := Project.bind_eq_ok.mp read
  obtain ⟨held, rfl⟩ : ∃ held : Held, sent = held.entries := by
    have start := setAll_entries "client" (Project.envelopeFacts item.envelope) ∅
    rw [entries_empty] at start
    rw [start] at first
    refine foldlM_entries (fun held a ps added => ?_) _ _ first
    obtain ⟨⟨value, origin⟩, -, put⟩ := Project.bind_eq_ok.mp added
    cases put
    exact ⟨_, setProperty_entries _ _ _ held⟩
  obtain ⟨held, rfl⟩ : ∃ held : Held, measured = held.entries := by
    refine foldlM_entries (fun held a ps added => ?_) _ _ second
    obtain ⟨value, -, put⟩ := Project.bind_eq_ok.mp added
    cases put
    cases a.unit with
    | none => exact ⟨_, setProperty_entries _ _ _ held⟩
    | some unit => exact ⟨_, by rw [Option.map_some, Option.getD_some, setProperty_entries, setProperty_entries]⟩
  have own : Project.setAll "client" (Project.payloadProperties pr (.metricPoint point)) held.entries =
      (held.setAll "client" (Project.metricProperties pr point)).entries := setAll_entries _ _ _
  have done := Except.ok.inj read
  rw [own] at done
  refine ⟨held, if item.envelope.kind = .campaignTouch ∨ (Project.Touch.of pr
    (held.setAll "client" (Project.metricProperties pr point)).entries).hasCampaign then Project.derivedProperties pr
      (Project.Touch.of pr (held.setAll "client" (Project.metricProperties pr point)).entries) else [], ?_, ?_⟩
  · intro x inside
    split_ifs at inside
    · simp only [Project.derivedProperties, Project.optional, Project.text, mem_append, mem_cons,
        not_mem_nil, or_false, Option.mem_toList, Option.map_eq_some_iff] at inside
      rcases inside with (rfl | rfl) | ⟨domain, -, rfl⟩ <;> simp [metricFields]
    · cases inside
  · rw [← done]
    split_ifs
    · exact setAll_entries _ _ _
    · rfl

theorem labelProperty_other {label : Wire.Property} {x : Pair} (told : Project.labelProperty label = some x) :
    x.1 ∉ metricFields := by
  unfold Project.labelProperty at told
  split at told
  · cases told
  · cases told
    simp only
    split_ifs with field
    · -- no field begins as a prefixed label does
      have heads : ∀ f ∈ metricFields, f.toList.head? ≠ some 'l' := by decide
      intro inside
      refine heads _ inside ?_
      rw [String.toList_append, head?_append]
      rfl
    · simpa [Project.metricFields, metricFields] using field

theorem field_stored (stored : Stored pr item point row) {key : String} {v : PropertyValue} (field : key ∈ metricFields)
    (told : (key, v) ∈ Project.metricProperties pr point)
    (alone : ∀ x ∈ Project.metricProperties pr point, x.1 = key → x.2 = v) : (key, v, "client") ∈ row.properties := by
  obtain ⟨measured, derived, others, held⟩ := properties_of_stored stored
  rw [held]
  refine mem_foldl_insert_old ?_ fun x inside same => others x inside (same ▸ field)
  exact mem_foldl_insert_new told fun x inside same => congrArg (·, "client") (alone x inside same)

theorem told_once {x : Pair} (told : x ∈ Project.metricProperties pr point) :
    (x.1 = "series_key" → x.2 = .text (Wire.seriesKey pr.floatText point)) ∧
      (x.1 = "metric_kind" → x.2 = .text point.metricKind.name) := by
  have label (inside : x ∈ point.labels.filterMap Project.labelProperty) : x.1 ∉ metricFields := by
    obtain ⟨label, -, told⟩ := mem_filterMap.mp inside
    exact labelProperty_other told
  simp only [Project.metricProperties, Project.optional, Project.text, mem_append, mem_cons,
    not_mem_nil, or_false, Option.mem_toList, Option.map_eq_some_iff] at told
  rcases told with (((((one | value) | unit) | period) | histogram) | trace) | labels
  · rcases one with rfl | rfl | rfl | rfl <;> simp
  · obtain ⟨v, -, rfl⟩ := value
    simp
  · obtain ⟨v, -, rfl⟩ := unit
    simp
  · rcases period with rfl | rfl | rfl <;> simp
  · cases held : point.histogramValue with
    | none => simp [held] at histogram
    | some h =>
      simp only [held, Option.map_some, Option.getD_some, Project.histogramProperties, Project.text, mem_cons,
        not_mem_nil, or_false] at histogram
      rcases histogram with rfl | rfl | rfl | rfl <;> simp
  · obtain ⟨v, -, rfl⟩ := trace
    simp
  · exact ⟨fun same => absurd (by rw [same]; decide) (label labels), fun same => absurd (by rw [same]; decide) (label labels)⟩

theorem key_stored (stored : Stored pr item point row) :
    ("series_key", .text (Wire.seriesKey pr.floatText point), "client") ∈ row.properties ∧
      ("metric_kind", .text point.metricKind.name, "client") ∈ row.properties := by
  refine ⟨field_stored stored (by decide) ?_ fun x inside => (told_once inside).1,
    field_stored stored (by decide) ?_ fun x inside => (told_once inside).2⟩
  · simp [Project.metricProperties, Project.text]
  · simp [Project.metricProperties, Project.text]

theorem value_rowOf (exact : UInt64 → ℚ) (stored : Stored pr item point row) {key origin : String} {v : PropertyValue}
    (inside : (key, v, origin) ∈ row.properties) : value (rowOf exact row) key = some (exactValue exact v) := by
  obtain ⟨measured, derived, -, held⟩ := properties_of_stored stored
  generalize (measured.setAll "client" (Project.metricProperties pr point)).setAll "collector" derived = map at held
  have read : (rowOf exact row).properties = map.mapValues fun _ x => (exactValue exact x.1, x.2) := by
    unfold rowOf
    rw [held]
    exact ofList_of_perm (List.Perm.refl _)
  rw [held] at inside
  unfold value
  rw [read, get?_mapValues, get?_eq_some.mpr inside]
  rfl

theorem text_key_stored (exact : UInt64 → ℚ) (stored : Stored pr item point row) :
    text (rowOf exact row) "series_key" = some (Wire.seriesKey pr.floatText point) ∧
      text (rowOf exact row) "metric_kind" = some point.metricKind.name := by
  unfold text
  rw [value_rowOf exact stored (key_stored stored).1, value_rowOf exact stored (key_stored stored).2]
  exact ⟨rfl, rfl⟩

end

/-! The key of the row that a pass writes. -/

section
variable {format : ℚ → String} {digest : Bytes → Id} {row first : Row} {key : String}

def carriedLabels (format : ℚ → String) (row : Row) : List Label :=
  (labelProperties row).map fun label => (label.1, display format label.2)

theorem toList_derivedSeriesKey (row : Row) : (derivedSeriesKey format row).toList =
    ((text row "metric_kind").getD "").toList ++ bodyOf (carriedLabels format row) := by
  have marks : (toString "\x01").toList = [Wire.labelMark] ∧ (toString "\x02").toList = [Wire.valueMark] := by decide
  unfold derivedSeriesKey carriedLabels
  generalize (text row "metric_kind").getD "" = key
  induction labelProperties row generalizing key with
  | nil => simp [bodyOf]
  | cons label rest ih =>
    rw [foldl_cons, ih]
    simp only [map_cons, bodyOf, String.toList_append, marks.1, marks.2, append_assoc, cons_append,
      nil_append]
    rfl

def Free (key : String) : Prop := key ∉ metricFields ∧ key ∉ markers

instance : DecidablePred Free := fun _ => inferInstanceAs (Decidable (_ ∧ _))

def labelsMap (row : Row) : OrderedMap String Value := (row.properties.filter fun key _ => Free key).mapValues fun _ x => x.1

theorem labelProperties_eq (row : Row) : labelProperties row = (labelsMap row).entries := rfl

theorem get?_labelsMap (row : Row) (key : String) :
    (labelsMap row).get? key = if Free key then value row key else none := by
  unfold labelsMap
  rw [get?_mapValues]
  split_ifs with free
  · have kept : ∀ x : Value × String, (fun key (_ : Value × String) => decide (Free key)) key x = true :=
      fun _ => decide_eq_true free
    rw [get?_filter kept]
    rfl
  · rw [Option.map_eq_none_iff, get?_eq_none]
    intro x inside
    exact free (of_decide_eq_true (OrderedMap.mem_filter.mp inside).2)

theorem properties_labels (row : Row) (labels : List (String × Value)) :
    (labels.foldl (fun row label => row.withProperty label.1 label.2 "client") row).properties =
      labels.foldl (fun held label => held.insert label.1 (label.2, "client")) row.properties := by
  induction labels generalizing row with
  | nil => rfl
  | cons label rest ih => rw [foldl_cons, ih, foldl_cons]; rfl

theorem value_labels_free (free : Free key) (none : value row key = none) :
    value ((labelProperties first).foldl (fun row label => row.withProperty label.1 label.2 "client") row) key =
      value first key := by
  cases held : value first key with
  | none =>
    rw [value_labels, none]
    rintro label inside rfl
    have there := get?_eq_some.mpr ((labelProperties_eq first) ▸ inside)
    rw [get?_labelsMap, if_pos free, held] at there
    cases there
  | some v =>
    have inside : (key, v) ∈ labelProperties first := by
      rw [labelProperties_eq, ← get?_eq_some, get?_labelsMap, if_pos free, held]
    unfold value
    rw [properties_labels]
    have put := @mem_foldl_insert_new _ _ _ _ Prod.fst (fun label : String × Value => (label.2, "client")) _
      row.properties _ inside fun x more same => by
        rw [labelProperties_eq] at inside more
        obtain ⟨name, other⟩ := x
        obtain rfl : name = key := same
        rw [eq_of_mem more inside]
    rw [get?_eq_some.mpr put]
    rfl

theorem intoRow_key {rolled : Rolled} (labels : rolled.labels = labelProperties first) (name : String)
    (startAt endAt : Int) (projectId : Id) : ∃ key, text (rolled.intoRow format digest name startAt endAt projectId)
      "series_key" = some key ∧ key.toList = rolled.kind.toList ++ bodyOf (carriedLabels format first) := by
  obtain ⟨pre, made, kind, carried⟩ : ∃ pre : Row, rolled.intoRow format digest name startAt endAt projectId =
      pre.keyed format ∧ text pre "metric_kind" = some rolled.kind ∧ labelProperties pre = labelProperties first := by
    refine ⟨_, rfl, ?_, ?_⟩
    · have apart := labels ▸ @labels_apart first "metric_kind" (.inl (by decide))
      unfold text
      cases rolled.unit <;> cases rolled.layout <;> simp [value_labels apart, value_metricRow]
    · rw [labelProperties_eq, labelProperties_eq]
      refine congrArg OrderedMap.entries (ext_of_get? fun key => ?_)
      rw [get?_labelsMap, get?_labelsMap]
      split_ifs with free
      · -- all that is put beside the labels is the row's own
        have other (field : String) (own : field ∈ metricFields ∨ field ∈ markers) : key ≠ field :=
          fun same => own.elim (same ▸ free.1) (same ▸ free.2)
        have period := And.intro (other "start_at" (by decide)) (other "end_at" (by decide))
        have rollup := And.intro (other "rollup_resolution_ms" (by decide)) (other "rollup_points" (by decide))
        have counts := And.intro (other "histogram_counts" (by decide)) (other "histogram_count" (by decide))
        have shape := And.intro (other "histogram_bounds" (by decide)) (other "histogram_sum" (by decide))
        have unit := other "unit" (by decide)
        have number := other "value" (by decide)
        have none : ∀ kind, value (metricRow digest name endAt projectId kind) key = Option.none := by
          intro kind
          rw [value_metricRow, if_neg (other _ (by decide)), if_neg (other _ (by decide)), if_neg (other _ (by decide)),
            if_neg (other _ (by decide))]
        rw [labels]
        cases rolled.unit <;> cases rolled.layout <;>
          simp only [value_withProperty, if_neg number, if_neg shape.1, if_neg shape.2, if_neg counts.1, if_neg counts.2] <;>
          refine value_labels_free free ?_ <;>
          simp only [value_withProperty, if_neg unit, if_neg rollup.1, if_neg rollup.2, if_neg period.1, if_neg period.2, none]
      · rfl
  refine ⟨derivedSeriesKey format pre, ?_, ?_⟩
  · rw [made]
    unfold text Row.keyed
    rw [value_withProperty, if_pos rfl]
  · rw [toList_derivedSeriesKey, kind, carriedLabels, carried]
    rfl

theorem kind_take (entry : Rolled) (row : Row) :
    (entry.take row).kind = (text row "metric_kind").getD "" ∨ (entry.take row).kind = entry.kind := by
  unfold Rolled.take
  cases entry.add row with
  | none => exact .inr rfl
  | some added => exact .inl rfl

theorem kind_foldl {kind : String} {points : List Row} (each : ∀ p ∈ points, (text p "metric_kind").getD "" = kind)
    (head : points.head? = some first) : (points.foldl Rolled.take (.blank first)).kind = kind := by
  cases points with
  | nil => cases head
  | cons row rest =>
    obtain rfl := Option.some.inj head
    rw [foldl_cons]
    have start : ((Rolled.blank row).take row).kind = kind := by
      rw [← each row mem_cons_self]
      unfold Rolled.take Rolled.add Rolled.addHistogram
      cases layoutOf row <;> rfl
    have later : ∀ p ∈ rest, (text p "metric_kind").getD "" = kind := fun p inside => each p (mem_cons_of_mem _ inside)
    clear each head
    generalize (Rolled.blank row).take row = entry at start
    induction rest generalizing entry with
    | nil => exact start
    | cons next rest ih =>
      refine ih (fun p inside => later p (mem_cons_of_mem _ inside)) _ ?_
      rcases kind_take entry next with same | same
      · exact same.trans (later next mem_cons_self)
      · exact same.trans start

theorem written_key {rows : List Row} {bucketMs : Int} {projectId : Id} {key : Key} {written : Row} {kind : String}
    (positive : 0 < bucketMs) (perm : (downsample format digest rows bucketMs projectId).rows.Perm
      (written :: (downsample format digest (othersOf bucketMs key rows) bucketMs projectId).rows))
    (head : (pointsOf bucketMs key rows).head? = some first)
    (each : ∀ p ∈ pointsOf bucketMs key rows, (text p "metric_kind").getD "" = kind) :
    ∃ named, text written "series_key" = some named ∧ named.toList = kind.toList ++ bodyOf (carriedLabels format first) := by
  have also := rows_perm format digest rows bucketMs projectId key positive
  obtain ⟨sums, labels⟩ := sums_foldl (pointsOf bucketMs key rows) first
  have kinds := kind_foldl each head
  have held : rolledOf (pointsOf bucketMs key rows) =
      some ((pointsOf bucketMs key rows).foldl Rolled.take (.blank first)) := by
    rw [rolledOf, head]
    rfl
  generalize (pointsOf bucketMs key rows).foldl Rolled.take (.blank first) = rolled at labels kinds held
  rw [held, Option.bind_some, windowRow] at also
  split_ifs at also with mixed
  · have lengths := (perm.symm.trans also).length_eq
    simp at lengths
  · rw [Option.toList_some, singleton_append] at also
    have rows := Multiset.coe_eq_coe.mpr (perm.symm.trans also)
    rw [← Multiset.cons_coe, ← Multiset.cons_coe] at rows
    rw [(Multiset.cons_inj_left _).mp rows, ← kinds]
    exact intoRow_key labels _ _ _ _

end


section
variable {format : ℚ → String} {digest : Bytes → Id}

theorem inKeyOrder_carried (row : Row) : inKeyOrder (carriedLabels format row) = carriedLabels format row := by
  rw [Wire.inKeyOrder_eq]
  refine List.Pairwise.insertionSort_eq (pairwise_map.mpr ?_)
  rw [labelProperties_eq]
  refine (labelsMap row).ascending.imp fun {a b} less => ?_
  exact Prod.Lex.toLex_le_toLex.mpr (.inl less)

/-- A row that a pass writes for the points of one series in one window, beside what it writes without them. -/
def Writes (format : ℚ → String) (digest : Bytes → Id) (rows : List Row) (bucketMs : Int) (projectId : Id) (key : Key)
    (written : Row) : Prop :=
  (downsample format digest rows bucketMs projectId).rows.Perm
    (written :: (downsample format digest (othersOf bucketMs key rows) bucketMs projectId).rows)

theorem series_of_keyOf {bucketMs : Int} {row : Row} {key : Key} (mine : keyOf bucketMs row = some key) :
    (text row "series_key").getD "" = (ofLex (ofLex key).2).2 := by
  unfold keyOf at mine
  split_ifs at mine
  cases mine
  rfl

end

/-! A point with one label. -/

def textLabel (name value : String) : Wire.Property :=
  ⟨name, ⟨.text, none, none, none, none, none, some value, none⟩, .client⟩

def hitsOf (labels : List Wire.Property) : MetricPointPayload where
  metricName := "hits"
  metricKind := .counter
  unit := none
  description := none
  monotonic := true
  temporality := .delta
  startAt := 0
  endAt := 5
  labels := labels
  numberValue := some 1
  histogramValue := none
  exemplarTraceId := none

def hitsItem (labels : List Wire.Property) : TelemetryItem :=
  { Wire.emptyItem { Wire.Envelope.bare (List.replicate 16 7) .metricPoint 5 with
      workspaceId := some (List.replicate 16 1)
      projectId := some (List.replicate 16 2) } with metricPoint := some (hitsOf labels) }

def plainProjector : Projector := ⟨fun _ => "1", fun _ => "1", fun _ => ⟨"", "", 0, []⟩, fun _ => none, fun _ => ""⟩

def hitsRow (labels : List Wire.Property) : EventRow :=
  (Project.project plainProjector (hitsItem labels)).toOption.getD (EventRow.new 0 "" "" 0)

def passOver (labels : List Wire.Property) : Downsampled :=
  downsample (fun _ => "1") lastBytes [rowOf (fun _ => 1) (hitsRow labels)] 60 0

def keyOver (labels : List Wire.Property) : Key :=
  toLex (0, toLex ("hits", Wire.seriesKey plainProjector.floatText (hitsOf labels)))

theorem writes_one {labels : List Wire.Property} (one : (passOver labels).rows.length = 1)
    (mine : keyOf 60 (rowOf (fun _ => 1) (hitsRow labels)) = some (keyOver labels)) : ∃ written, (passOver labels).rows = [written] ∧
      Writes (fun _ => "1") lastBytes [rowOf (fun _ => 1) (hitsRow labels)] 60 0 (keyOver labels) written := by
  obtain ⟨written, same⟩ := length_eq_one_iff.mp one
  have none : othersOf 60 (keyOver labels) [rowOf (fun _ => 1) (hitsRow labels)] = [] := by simp [othersOf, mine]
  refine ⟨written, same, ?_⟩
  unfold Writes
  rw [none]
  unfold passOver at same
  rw [same]
  exact List.Perm.refl _

def euLabel : List Wire.Property := [textLabel "region" "eu"]

end TallyOwl.SeriesKept
