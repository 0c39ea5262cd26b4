import TallyOwl.Collector.Vouched
import TallyOwl.Head.Refusals

/-! What a collector drops under the snapshot of its own source, against what the head refuses of
the row that the same item becomes (`policy.rs` of both). -/
namespace TallyOwl.Collector
open Lib Wire Policy Project List

section

theorem mem_allKinds (k : TelemetryKind) : k ∈ allKinds := by
  cases k <;> decide

theorem collectorKindOf_eq_some {name : String} {k : TelemetryKind} :
    collectorKindOf name = some k ↔ kindName k = name := by
  constructor
  · intro known
    simpa using find?_some known
  · rintro rfl
    cases found : collectorKindOf (kindName k) with
    | none =>
      have unknown := find?_eq_none.mp found k (mem_allKinds k)
      simp at unknown
    | some other =>
      have same : kindName other = kindName k := by simpa using find?_some found
      rw [kindName_injective same]

theorem mem_snapshot_kinds {kinds : List String} {k : TelemetryKind} :
    kindName k ∈ (kinds.filterMap collectorKindOf).map kindName ↔ kindName k ∈ kinds := by
  rw [mem_map_of_injective kindName_injective, mem_filterMap]
  simp [collectorKindOf_eq_some]

@[simp] theorem getD_nonempty (names : List String) : (nonempty names).getD [] = names := by
  unfold nonempty
  split <;> rename_i empty
  · exact empty.symm
  · rfl

/-- What the snapshot of some documents refuses. A list that holds no kind this build knows reaches a
collector as no list. -/
def RefusedAtEdge (docs : List Document) (kind name : String) : Prop :=
  (∃ d ∈ docs, d.Stops kind name) ∨
    ∃ kinds, narrowest docs = some kinds ∧ (∃ k ∈ kinds, (collectorKindOf k).isSome) ∧ kind ∉ kinds

variable {floatText : UInt64 → String} {s : PolicyService} {source : Source} {snapshot : Snapshot}

theorem fields_read {policy : CollectionPolicy} (applied : Snapshot.read floatText policy = .ok snapshot) :
    snapshot.enabledKinds = policy.enabledKinds.map kindName ∧
      snapshot.blockedEventNames = policy.blockedEventNames.getD [] ∧
      snapshot.campaignLinking = policy.campaignLinking.getD .linked ∧
      snapshot.killSwitch = policy.killSwitch.getD false := by
  unfold Snapshot.read at applied
  split at applied
  · cases applied
  split at applied
  · cases applied
  cases applied
  exact ⟨rfl, rfl, rfl, rfl⟩

theorem keeps_snapshotFor (applied : Snapshot.read floatText (s.snapshotFor source) = .ok snapshot)
    (item : TelemetryItem) : snapshot.keeps item = false ↔
      RefusedAtEdge (s.held.above source) (kindName item.envelope.kind) (itemName item) := by
  obtain ⟨kinds, names, linking, kill⟩ := fields_read applied
  have touch : kindName item.envelope.kind = "campaign-touch" ↔ item.envelope.kind = .campaignTouch := by
    rw [show "campaign-touch" = kindName .campaignTouch from rfl, kindName_injective.eq_iff]
  have capture : ∀ c : Capture, toWireCapture c = .none ↔ c = .none := by
    intro c
    cases c <;> decide
  let c := s.held.compile (hex source.workspaceId.bytes) (hex source.projectId.bytes) ""
    (hex source.sourceId.bytes)
  have stops : c.Stops (kindName item.envelope.kind) (itemName item) ↔
      ∃ d ∈ s.held.above source, d.Stops (kindName item.envelope.kind) (itemName item) := by
    rw [← Policies.found_source]
    exact Policies.stops_foldl
  have listed : c.enabledKinds = (narrowest (s.held.above source)).getD [] := by
    rw [← Policies.found_source]
    exact Policies.kinds_compiled
  have known : snapshot.enabledKinds ≠ [] ↔ ∃ k ∈ c.enabledKinds, (collectorKindOf k).isSome := by
    rw [kinds]
    simp [PolicyService.snapshotFor, toWireSnapshot, c, Option.isSome_iff_exists, filterMap_eq_nil_iff,
      Option.eq_none_iff_forall_ne_some]
  have named : kindName item.envelope.kind ∈ snapshot.enabledKinds ↔
      kindName item.envelope.kind ∈ c.enabledKinds := by
    rw [kinds]
    exact mem_snapshot_kinds
  rw [Snapshot.keeps_eq_false, known, named, RefusedAtEdge, ← stops, names, linking, kill]
  have kinds_out : (∃ kinds, narrowest (s.held.above source) = some kinds ∧
      (∃ k ∈ kinds, (collectorKindOf k).isSome) ∧ kindName item.envelope.kind ∉ kinds) ↔
      (∃ k ∈ c.enabledKinds, (collectorKindOf k).isSome) ∧ kindName item.envelope.kind ∉ c.enabledKinds := by
    rw [listed]
    cases narrowest (s.held.above source) <;> simp
  rw [kinds_out, Compiled.Stops, touch]
  simp only [PolicyService.snapshotFor, toWireSnapshot, getD_nonempty, Option.getD_some, capture, c]
  grind

end

section
variable {L : Type} {intake : Intake L} {tenancy : Tenancy} {now : Int} {item : TelemetryItem}
  {pr : Projector} {row : EventRow} {s : PolicyService}

/-- Whether the head refuses a row under what the documents of its project compile to. -/
def HeadRefuses (s : PolicyService) (row : EventRow) : Prop :=
  (s.compileFor row.projectId).keeps row = false ∨
    ((s.compileFor row.projectId).capture row).1 = .refused

theorem headRefuses_iff : HeadRefuses s row ↔ RefusedOver (s.held.ofProject row.projectId) row.kind row.name :=
  Commit.refuses_iff.symm.trans PolicyService.refuses_compileFor

theorem kind_finish : (intake.finish tenancy now item).envelope.kind = item.envelope.kind ∧
    (intake.finish tenancy now item).envelope.projectId = some tenancy.projectId.bytes := by
  unfold Intake.finish Snapshot.unlinkCampaign
  cases intake.policy with
  | none => exact ⟨rfl, rfl⟩
  | some policy =>
    simp only
    split <;> exact ⟨rfl, rfl⟩

/-- The row of an item that went through intake is its credential's, of its own kind, under the name
that the scrubbed item is blocked by. -/
theorem row_of_finish (projected : project pr (intake.finish tenancy now item) = .ok row) :
    row.projectId = tenancy.projectId ∧ row.kind = kindName item.envelope.kind ∧
      row.name = itemName (intake.finish tenancy now item) := by
  obtain ⟨p, carried, kind, name, -, owner⟩ := project_ok projected
  rw [kind_finish.1] at kind
  rw [kind_finish.2, Option.getD_some, toId, if_pos (Id.length_bytes _), Id.ofBytes_bytes] at owner
  exact ⟨(Option.some.inj owner).symm, kind, name.trans (itemName_eq carried).symm⟩

end

/-- A collector drops nothing that the head would keep exactly when each item that its snapshot's
documents refuse is refused by those of the installation and of the item's own project too, under the
name it would be stored under. -/
theorem edge_agrees_iff {L : Type} (floatText : UInt64 → String) (s : PolicyService) (source : Source)
    (intake : Intake L) (tenancy : Tenancy) (now : Int) (pr : Projector) (item : TelemetryItem) :
    (∀ snapshot, Snapshot.read floatText (s.snapshotFor source) = .ok snapshot →
      snapshot.keeps item = false →
        ∀ row, project pr (Intake.finish { intake with policy := some snapshot } tenancy now item) = .ok row →
          HeadRefuses s row) ↔
    ∀ snapshot, Snapshot.read floatText (s.snapshotFor source) = .ok snapshot →
      ∀ row, project pr (Intake.finish { intake with policy := some snapshot } tenancy now item) = .ok row →
        RefusedAtEdge (s.held.above source) (kindName item.envelope.kind) (itemName item) →
          RefusedOver (s.held.ofProject tenancy.projectId) (kindName item.envelope.kind)
            (itemName (Intake.finish { intake with policy := some snapshot } tenancy now item)) := by
  have agree : ∀ snapshot row,
      project pr (Intake.finish { intake with policy := some snapshot } tenancy now item) = .ok row →
        (HeadRefuses s row ↔ RefusedOver (s.held.ofProject tenancy.projectId)
          (kindName item.envelope.kind)
          (itemName (Intake.finish { intake with policy := some snapshot } tenancy now item))) := by
    intro snapshot row projected
    obtain ⟨owner, kind, name⟩ := row_of_finish projected
    rw [headRefuses_iff, owner, kind, name]
  constructor
  · intro refines snapshot applied row projected refused
    exact (agree snapshot row projected).mp
      (refines snapshot applied ((keeps_snapshotFor applied item).mpr refused) row projected)
  · intro covers snapshot applied dropped row projected
    exact (agree snapshot row projected).mpr
      (covers snapshot applied row projected ((keeps_snapshotFor applied item).mp dropped))

/-- A project that blocks one name, in an installation that sets nothing else. -/
def blocksOpened : PolicyService where
  held := .one { Document.blank .project (hex (Id.bytes 2)) with blockedEventNames := ["opened"] }
    ⟨rfl, rfl, fun _ => by decide +kernel, by decide⟩
  compiled := fun _ => none

def opened : TelemetryItem :=
  { emptyItem (Envelope.bare (List.replicate 16 1) .event 1000) with event := some ⟨"opened", none, none⟩ }

/-- A collector of that project drops the item of another project's key. -/
theorem another_project_is_dropped :
    ¬ ∀ snapshot, Snapshot.read (fun _ => "") (blocksOpened.snapshotFor ⟨1, 2, 3⟩) = .ok snapshot →
      snapshot.keeps opened = false →
        ∀ row, project Commit.bareHead.projector
            (Intake.finish { regional with policy := some snapshot } ⟨1, 5, 6⟩ 2000 opened) = .ok row →
          HeadRefuses blocksOpened row := by
  intro refines
  let snapshot : Snapshot := ⟨1, [], ["opened"], [], [], .linked, false, 65536, 256⟩
  have applied : Snapshot.read (fun _ => "") (blocksOpened.snapshotFor ⟨1, 2, 3⟩) = .ok snapshot := by
    decide +kernel
  have dropped : snapshot.keeps opened = false := by decide
  cases projected : project Commit.bareHead.projector
      (Intake.finish { regional with policy := some snapshot } ⟨1, 5, 6⟩ 2000 opened) with
  | error reason =>
    have reads : (project Commit.bareHead.projector
        (Intake.finish { regional with policy := some snapshot } ⟨1, 5, 6⟩ 2000 opened)).toOption.isSome = true := by
      decide +kernel
    rw [projected] at reads
    cases reads
  | ok row =>
    have refuses := headRefuses_iff.mp (refines snapshot applied dropped row projected)
    have none_set : blocksOpened.held.ofProject 5 = [] := by decide +kernel
    rw [(row_of_finish projected).1, none_set] at refuses
    rcases refuses with ⟨d, absent, -⟩ | ⟨kinds, listed, -⟩
    · cases absent
    · cases listed

end TallyOwl.Collector
