import Mathlib.Data.List.Induction
import TallyOwl.Collector.Intake

/-! What a collector vouches for on an item it queues: whose it is, every property whose origin is
the collector, and every property under a name that an application cannot set. -/
namespace TallyOwl.Collector
open Lib Wire List

section

/-- The value the configuration gives a key: that of the last pair that names it. -/
def configured (stamped : List (String × String)) (key : String) : Option String :=
  (stamped.reverse.find? fun x => x.1 == key).map fun x => x.2

variable {stamped : List (String × String)}

theorem configured_append {last : String × String} {key : String} :
    configured (stamped ++ [last]) key = if last.1 = key then some last.2 else configured stamped key := by
  by_cases same : last.1 = key <;> simp [configured, same]

theorem stampProperties_append {last : String × String} {properties : List Property} :
    stampProperties (stamped ++ [last]) properties = stampOne (stampProperties stamped properties) last.1 last.2 := by
  simp [stampProperties]

theorem stampOne_append (properties stamps : List Property) (key value : String) :
    stampOne (properties ++ stamps) key value =
      (properties.filter fun p => p.key != key) ++ stampOne stamps key value := by
  simp [stampOne]

theorem stampProperties_eq (stamped : List (String × String)) (properties : List Property) :
    stampProperties stamped properties = (properties.filter fun p => !refused p && (configured stamped p.key).isNone) ++
        stampProperties stamped [] := by
  induction stamped using List.reverseRecOn with
  | nil => simp [stampProperties, configured]
  | append_singleton rest last ih =>
    rw [stampProperties_append, stampProperties_append, ih, stampOne_append, filter_filter]
    congr 1
    refine filter_congr fun p _ => ?_
    rw [configured_append]
    by_cases same : last.1 = p.key
    · simp [same]
    · simp [same, Ne.symm same]

theorem mem_stamps {p : Property} : p ∈ stampProperties stamped [] ↔
      ∃ value, configured stamped p.key = some value ∧ p = property p.key (.text value) .collector := by
  induction stamped using List.reverseRecOn with
  | nil => simp [stampProperties, configured]
  | append_singleton rest last ih =>
    rw [stampProperties_append, configured_append]
    simp only [stampOne, mem_append, List.mem_filter, ih, mem_singleton, bne_iff_ne, ne_eq]
    by_cases same : last.1 = p.key
    · simp [same]
    · have other : p ≠ property last.1 (.text last.2) .collector := by
        rintro rfl
        exact same rfl
      simp [same, Ne.symm same, other]

end

section
variable {L : Type} (intake : Intake L)

def Intake.blocks (key : String) : Bool :=
  intake.policy.any fun policy => policy.blockedPropertyKeys.contains key

/-- A property as it is written to the batch, past the scrubber and the policy's redaction. -/
def Intake.written (p : Property) : Property :=
  (intake.policy.map Snapshot.redact).getD id (scrubProperty intake.unicode p)

@[simp] theorem Intake.written_key (p : Property) : (intake.written p).key = p.key := by
  unfold written
  cases intake.policy <;> simp

@[simp] theorem Intake.written_origin (p : Property) : (intake.written p).origin = p.origin := by
  unfold written
  cases intake.policy <;> simp

theorem Intake.properties_finish (tenancy : Tenancy) (now : Int) (item : TelemetryItem) :
    (intake.finish tenancy now item).envelope.properties =
      ((stampProperties intake.stamped item.envelope.properties).filter fun p =>
        !intake.blocks p.key).map intake.written := by
  unfold finish blocks written
  cases intake.policy with
  | none => simp [scrubItem, stamp]
  | some policy =>
    simp [Snapshot.applyProperties, scrubItem, stamp, filter_map, Function.comp_def]

/-- The stamps of the configuration that the policy lets through. -/
def Intake.configuredProperties : List Property :=
  (stampProperties intake.stamped []).filter fun p => !intake.blocks p.key

def vouchesFor (p : Property) : Bool := p.origin == .collector || protectedKeys.contains p.key

/-- What is vouched for comes from the credential and the configuration. -/
structure Intake.Vouched (tenancy : Tenancy) (item : TelemetryItem) : Prop where
  workspace : item.envelope.workspaceId = some tenancy.workspaceId.bytes
  project : item.envelope.projectId = some tenancy.projectId.bytes
  source : item.envelope.sourceId = some tenancy.sourceId.bytes
  stamped : ∀ p ∈ item.envelope.properties, p.origin = .collector →
    ∃ value, configured intake.stamped p.key = some value ∧ p.value = write (.text value)
  ownNames : ∀ p ∈ item.envelope.properties, p.key ∈ protectedKeys →
    ∃ value, configured intake.stamped p.key = some value ∧ p.origin = .collector
  same : item.envelope.properties.filter vouchesFor = intake.configuredProperties

/-- An item as it was sent claims nothing under a name that the configuration leaves free. -/
def Intake.Unforged (item : TelemetryItem) : Prop :=
  ∀ p ∈ item.envelope.properties, configured intake.stamped p.key = none → intake.blocks p.key = false →
    p.origin ≠ .collector ∧ (p.key ∈ protectedKeys → p.origin = .client)

/-- The scrubber and the redaction leave every configured value as it is. -/
def Intake.Intact : Prop :=
  ∀ key value, configured intake.stamped key = some value → intake.blocks key = false →
    intake.written (property key (.text value) .collector) = property key (.text value) .collector

end

section
variable {L : Type} {intake : Intake L} {tenancy : Tenancy} {now : Int} {item : TelemetryItem}

theorem Intake.mem_finish {q : Property} : q ∈ (intake.finish tenancy now item).envelope.properties ↔
      ∃ p, intake.written p = q ∧ intake.blocks p.key = false ∧
        (p ∈ item.envelope.properties ∧ refused p = false ∧ configured intake.stamped p.key = none ∨
          ∃ value, configured intake.stamped p.key = some value ∧ p = property p.key (.text value) .collector) := by
  rw [properties_finish, stampProperties_eq]
  simp only [mem_map, List.mem_filter, mem_append, mem_stamps, Bool.not_eq_true',
    Bool.and_eq_true, Option.isNone_iff_eq_none]
  grind

theorem refused_eq_false {p : Property} : refused p = false ↔ (p.key ∈ protectedKeys → p.origin ≠ .client) := by
  simp [refused]

theorem Intake.Unforged.passed (honest : intake.Unforged item) {p : Property}
    (sent : p ∈ item.envelope.properties) (open_ : intake.blocks p.key = false)
    (through : refused p = false) (free : configured intake.stamped p.key = none) :
    p.origin ≠ .collector ∧ p.key ∉ protectedKeys :=
  have unforged := honest p sent free open_
  ⟨unforged.1, fun named => refused_eq_false.mp through named (unforged.2 named)⟩

theorem Intake.same_finish (honest : intake.Unforged item) (intact : intake.Intact) :
    (intake.finish tenancy now item).envelope.properties.filter vouchesFor = intake.configuredProperties := by
  rw [properties_finish, stampProperties_eq, filter_append, map_append, filter_append]
  have none_sent : (((item.envelope.properties.filter fun p => !refused p &&
      (configured intake.stamped p.key).isNone).filter fun p => !intake.blocks p.key).map
        intake.written).filter vouchesFor = [] := by
    rw [filter_eq_nil_iff]
    intro q sent
    simp only [mem_map, List.mem_filter, Bool.not_eq_true', Bool.and_eq_true,
      Option.isNone_iff_eq_none] at sent
    obtain ⟨p, ⟨⟨sent, through, free⟩, unblocked⟩, rfl⟩ := sent
    have own := honest.passed sent unblocked through free
    simp [vouchesFor, own]
  have stamps : intake.configuredProperties.map intake.written = intake.configuredProperties := by
    refine (map_congr_left fun p stamped => ?_).trans (map_id _)
    rw [configuredProperties, List.mem_filter, mem_stamps, Bool.not_eq_true'] at stamped
    obtain ⟨⟨value, known, stamp⟩, unblocked⟩ := stamped
    rw [stamp]
    exact intact p.key value known unblocked
  have vouched : intake.configuredProperties.filter vouchesFor = intake.configuredProperties := by
    rw [filter_eq_self]
    intro p stamped
    rw [configuredProperties, List.mem_filter, mem_stamps] at stamped
    obtain ⟨⟨value, -, same⟩, -⟩ := stamped
    rw [same]
    rfl
  rw [none_sent, nil_append]
  exact (congrArg (List.filter vouchesFor) stamps).trans vouched

/-- What a finished item vouches for is the configuration's exactly when the item was honest and the
configured values pass unchanged. -/
theorem Intake.vouched_finish_iff :
    intake.Vouched tenancy (intake.finish tenancy now item) ↔ intake.Unforged item ∧ intake.Intact := by
  constructor
  · intro vouched
    refine ⟨fun p sent free unblocked => ?_, fun key value known unblocked => ?_⟩
    · have stays : refused p = false → intake.written p ∈ (intake.finish tenancy now item).envelope.properties :=
        fun through => mem_finish.mpr ⟨p, rfl, unblocked, .inl ⟨sent, through, free⟩⟩
      constructor
      · intro collector
        have through : refused p = false := refused_eq_false.mpr fun _ => by simp [collector]
        obtain ⟨value, known, -⟩ := vouched.stamped _ (stays through) (by simp [collector])
        simp [free] at known
      · intro named
        by_contra other
        obtain ⟨value, known, -⟩ :=
          vouched.ownNames _ (stays (refused_eq_false.mpr fun _ => other)) (by simpa using named)
        simp [free] at known
    · let p := property key (.text value) .collector
      have stays : intake.written p ∈ (intake.finish tenancy now item).envelope.properties :=
        mem_finish.mpr ⟨p, rfl, unblocked, .inr ⟨value, known, rfl⟩⟩
      obtain ⟨other, found, text⟩ := vouched.stamped _ stays (by simp [p, property])
      have agree : other = value := by
        rw [written_key] at found
        exact Option.some.inj (found.symm.trans known)
      subst agree
      have key_eq : (intake.written p).key = key := intake.written_key p
      have origin_eq : (intake.written p).origin = .collector := intake.written_origin p
      calc intake.written p
          = ⟨(intake.written p).key, (intake.written p).value, (intake.written p).origin⟩ := rfl
        _ = p := by rw [key_eq, text, origin_eq]; rfl
  · rintro ⟨honest, intact⟩
    have ids : (intake.finish tenancy now item).envelope.workspaceId = some tenancy.workspaceId.bytes ∧
        (intake.finish tenancy now item).envelope.projectId = some tenancy.projectId.bytes ∧
        (intake.finish tenancy now item).envelope.sourceId = some tenancy.sourceId.bytes := by
      unfold finish Snapshot.unlinkCampaign
      cases intake.policy with
      | none => exact ⟨rfl, rfl, rfl⟩
      | some policy =>
        simp only
        split <;> exact ⟨rfl, rfl, rfl⟩
    refine ⟨ids.1, ids.2.1, ids.2.2, fun q inside collector => ?_, fun q inside named => ?_,
      same_finish honest intact⟩
    · obtain ⟨p, rfl, unblocked, ⟨sent, through, free⟩ | ⟨value, known, stamp⟩⟩ := mem_finish.mp inside
      · exact absurd (by simpa using collector) (honest.passed sent unblocked through free).1
      · have kept : intake.written p = p := by
          rw [stamp]
          exact intact p.key value known unblocked
        exact ⟨value, by simpa using known, by rw [kept, stamp]; rfl⟩
    · obtain ⟨p, rfl, unblocked, ⟨sent, through, free⟩ | ⟨value, known, stamp⟩⟩ := mem_finish.mp inside
      · exact absurd (by simpa using named) (honest.passed sent unblocked through free).2
      · exact ⟨value, by simpa using known, by rw [written_origin, stamp]; rfl⟩

def regional : Intake Unit where
  limits := ⟨1048576, 65536, 256⟩
  durableCopies := 1
  maxMergePoints := 1000
  stamped := [("region", "us-west2")]
  policy := none
  unicode := ⟨Char.isAlphanum, fun s => .ofList (s.toList.map Char.toLower)⟩
  floats := ⟨fun _ => "", fun a _ => a⟩
  codec := ⟨fun _ => [], fun _ => []⟩
  admitPoint := fun ledger _ _ _ _ => (ledger, .ok ())

def pageOpened : TelemetryItem :=
  { emptyItem { Envelope.bare (List.replicate 16 1) .event 1000 with
      properties := [property "env" (.text "production") .collector] } with
    event := some ⟨"opened", none, none⟩ }

/-- A batch of one event whose sender wrote the collector as the origin of an environment. -/
def claimed : SubmitBatchRequest := ⟨⟨[1], [pageOpened], none, 1000⟩, none, none⟩

end

end TallyOwl.Collector
