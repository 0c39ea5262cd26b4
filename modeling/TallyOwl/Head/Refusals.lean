import TallyOwl.Head.Commit

/-! What the documents of every level forbid, against what the head stores. The head compiles for a
project, so the levels of a workspace and of a source have no part in it. -/
namespace TallyOwl.Commit
open Lib Wire Collector Project Policy

/-- A stored row that no document refuses, with no value that one of them hides. -/
structure Upholds (docs : List Document) (row : EventRow) : Prop where
  collects : ∀ d ∈ docs, ¬ d.Refuses row.kind row.name
  hides : ∀ x ∈ row.properties, (∃ d ∈ docs, d.Hides x.1) → x.2.1 = .text Policy.redacted

/-- What is in force for a project refuses an item: what is kept for it, or else its documents. -/
def RefusesFor (s : PolicyService) (projectId : Id) (kind name : String) : Prop :=
  match s.compiled projectId with
  | some c => c.Refuses kind name
  | none => RefusedOver (s.held.ofProject projectId) kind name

def HidesFor (s : PolicyService) (projectId : Id) (key : String) : Prop :=
  match s.compiled projectId with
  | some c => c.Hides key
  | none => ∃ d ∈ s.held.ofProject projectId, d.Hides key

/-- What some documents forbid of a projected row is forbidden by what is in force for its project. -/
structure Covered (s : PolicyService) (docs : List Document) (row : EventRow) : Prop where
  refused : (∃ d ∈ docs, d.Refuses row.kind row.name) → RefusesFor s row.projectId row.kind row.name
  hidden : ¬ RefusesFor s row.projectId row.kind row.name →
    ∀ x ∈ ((s.forProject row.projectId).capture row).2.properties, (∃ d ∈ docs, d.Hides x.1) →
      HidesFor s row.projectId x.1 ∨ x.2.1 = .text Policy.redacted

section
variable {s : PolicyService} {docs : List Document} {row stored : EventRow} {c : Compiled}

theorem refuses_forProject {projectId : Id} {kind name : String} :
    (s.forProject projectId).Refuses kind name ↔ RefusesFor s projectId kind name := by
  unfold PolicyService.forProject RefusesFor
  cases s.compiled projectId with
  | some c => rfl
  | none => exact PolicyService.refuses_compileFor

theorem hides_forProject {projectId : Id} {key : String} :
    (s.forProject projectId).Hides key ↔ HidesFor s projectId key := by
  unfold PolicyService.forProject HidesFor
  cases s.compiled projectId with
  | some c => rfl
  | none => exact PolicyService.hides_compileFor

theorem keeps_eq_false : c.keeps row = false ↔ c.killSwitch = true ∨ row.name ∈ c.blockedEventNames ∨
    (c.enabledKinds ≠ [] ∧ row.kind ∉ c.enabledKinds) := by
  unfold Compiled.keeps
  grind

theorem capture_refused : (c.capture row).1 = .refused ↔ row.kind = "campaign-touch" ∧ c.campaignLinking = .none := by
  unfold Compiled.capture
  grind

theorem refuses_iff : c.Refuses row.kind row.name ↔ c.keeps row = false ∨ (c.capture row).1 = .refused := by
  rw [keeps_eq_false, capture_refused]
  unfold Compiled.Refuses Compiled.Stops
  grind

theorem capture_same : (c.capture row).2.kind = row.kind ∧ (c.capture row).2.name = row.name ∧
    (c.capture row).2.workspaceId = row.workspaceId ∧ (c.capture row).2.projectId = row.projectId := by
  unfold Compiled.capture
  cases c.campaignLinking with
  | linked => exact ⟨rfl, rfl, rfl, rfl⟩
  | unlinked => simp only; split <;> exact ⟨rfl, rfl, rfl, rfl⟩
  | none => simp only; split <;> exact ⟨rfl, rfl, rfl, rfl⟩

theorem collectRow_eq_ok : collectRow s row = .ok stored ↔ ¬ RefusesFor s row.projectId row.kind row.name ∧
      stored = (s.forProject row.projectId).applyProperties ((s.forProject row.projectId).capture row).2 := by
  rw [← refuses_forProject, refuses_iff]
  unfold collectRow
  simp only
  split <;> rename_i keeps
  · simp [keeps]
  split <;> rename_i captured
  · simp [captured]
  · simp [keeps, captured, eq_comm]

theorem upholds_iff_covered : (∀ stored, collectRow s row = .ok stored → Upholds docs stored) ↔ Covered s docs row := by
  simp only [collectRow_eq_ok]
  obtain ⟨kind, name, -, -⟩ := @capture_same row (s.forProject row.projectId)
  constructor
  · intro upholds
    constructor
    · rintro ⟨d, inside, refuses⟩
      by_contra kept
      have held := (upholds _ ⟨kept, rfl⟩).collects d inside
      simp only [Compiled.applyProperties, kind, name] at held
      exact held refuses
    · intro kept x inside hidden
      by_contra open_
      rw [not_or, ← hides_forProject, Compiled.Hides, not_or] at open_
      have stays : x ∈ ((s.forProject row.projectId).applyProperties
          ((s.forProject row.projectId).capture row).2).properties := by
        refine List.mem_map.mpr ⟨x, List.mem_filter.mpr ⟨inside, by simpa using open_.1.1⟩, ?_⟩
        simp [Compiled.redact, open_.1.2]
      exact open_.2 ((upholds _ ⟨kept, rfl⟩).hides x stays hidden)
  · rintro covered stored ⟨kept, rfl⟩
    constructor
    · intro d inside
      simp only [Compiled.applyProperties, kind, name]
      exact fun refuses => kept (covered.refused ⟨d, inside, refuses⟩)
    · intro y stays hidden
      obtain ⟨x, filtered, rfl⟩ := List.mem_map.mp stays
      obtain ⟨inside, unblocked⟩ := List.mem_filter.mp filtered
      have same : ((s.forProject row.projectId).redact x).1 = x.1 := by
        unfold Compiled.redact
        split <;> rfl
      rw [same] at hidden
      unfold Compiled.redact
      split <;> rename_i redacts
      · rfl
      · refine (covered.hidden kept x inside hidden).resolve_left fun hides => ?_
        rw [← hides_forProject] at hides
        rcases hides with blocked | replaced
        · simp [blocked] at unblocked
        · exact redacts (by simpa using replaced)

end

/-- A workspace that is switched off, in an installation that sets nothing else. -/
def switchedOff : PolicyService where
  held := .one { Document.blank .workspace (hex (Id.bytes 1)) with killSwitch := some true }
    ⟨rfl, rfl, fun _ => by decide +kernel, by decide⟩
  compiled := fun _ => none

def bareHead : Ingest where
  receipt := fun _ _ => none
  commitRows := fun _ _ rows => .ok ⟨rows.length, 2000, 1, false⟩
  derivedBatchId := id
  goldenSignalBucketMs := 0
  goldenSignals := id
  sources := none
  policy := none
  projector := ⟨fun _ => "", fun _ => "", fun _ => ⟨"", "", 1, []⟩, fun _ => none, fun _ => ""⟩

def delivered : CommitBatchRequest where
  batch := ⟨List.replicate 16 9, [{ emptyItem { Envelope.bare (List.replicate 16 1) .event 1000 with
    workspaceId := some (Id.bytes 1), projectId := some (Id.bytes 2), sourceId := some (Id.bytes 3) } with
    event := some ⟨"opened", none, none⟩ }], none, 1000⟩
  sourceId := Id.bytes 3
  attempt := none
  protocolVersion := none

end TallyOwl.Commit
