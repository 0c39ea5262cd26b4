import TallyOwl.Store.Segmented.Frame

/-! Segment files and the records that name them. A writer puts every file of its
publish in place and then runs one transaction; as long as no two writers share a segment
id, a published segment keeps its file and its rows until a swap retires it. -/
namespace TallyOwl.Segmented
open Lib Format Locate RowCodec List OrderedMap

def SealStage.claims : SealStage → List Id
  | .drained batch => batch.plan.map Prod.snd
  | .writing _ segments _ => segments.map fun w => w.1.segmentId
  | _ => []

def Install.claims (install : Install) : List Id := [install.segment.1.segmentId]

def Swap.claims (swap : Swap) : List Id :=
  if swap.published then [] else swap.segments.map fun w => w.1.segmentId

def State.sealClaims (s : State) : List Id := s.turn.elim [] fun holder => holder.stage.claims

def State.claimed (s : State) : List Id :=
  s.sealClaims ++ (s.installs.flatMap Install.claims ++ s.swaps.flatMap Swap.claims)

/-- The ids are new: nobody is about to publish under one, and nobody did. -/
def NewIds (s : State) (ids : List Id) : Prop :=
  ids.Nodup ∧ ∀ id ∈ ids, id ∉ s.claimed ∧
    ∀ r ∈ s.catalog.segments.values, r.segmentId = id → r.tier = ""

-- The ids are looked at one by one; an id has too many values to try them all.
instance (s : State) (ids : List Id) : Decidable (NewIds s ids) :=
  have : Decidable (∀ id ∈ ids, id ∉ s.claimed ∧
      ∀ r ∈ s.catalog.segments.values, r.segmentId = id → r.tier = "") :=
    List.decidableBAll _ ids
  inferInstanceAs (Decidable (_ ∧ _))

/-- The replacements of a swap hold every row of the live segments it retires. -/
def SameRows (s : State) (swap : Swap) : Prop :=
  (∀ w ∈ swap.segments, w.1.tier ≠ "") ∧
  ∀ m ∈ s.catalog.manifests, m.segmentId ∈ swap.retire →
    ∀ rows ∈ s.files.get? m.segmentId, ∀ row ∈ rows, ∃ w ∈ swap.segments, row ∈ w.2

instance (s : State) (swap : Swap) : Decidable (SameRows s swap) :=
  inferInstanceAs (Decidable (_ ∧ _))

def Event.brings (s : State) : Event → List Id
  | .sealing (.drain segmentIds) => segmentIds
  | .install segment =>
      if s.catalog.manifests.any fun held => held.contentAddress = segment.1.contentAddress then []
      else [segment.1.segmentId]
  | .swap _ replacements =>
      if ∃ r ∈ replacements, r.2.2 = [] then [] else replacements.map fun r => r.2.1
  | _ => []

/-- Every caller brings its own segment ids, and a swap loses no row. -/
def KeepsSegments (s : State) (e : Event) : Prop :=
  NewIds s (e.brings s) ∧
    match e with
    | .swapPublish k => ∀ swap ∈ s.swaps[k]?, SameRows s swap
    | _ => True

instance (s : State) (e : Event) : Decidable (KeepsSegments s e) :=
  match e with
  | .swapPublish k =>
      inferInstanceAs (Decidable (_ ∧ ∀ swap ∈ s.swaps[k]?, SameRows s swap))
  | .openLog | .recordCheckpoint | .openWith _ | .crash | .commit _ _ _ | .call _ _ | .log _
  | .sealStart _ | .sealing _ | .install _ | .installWrite _ | .installPublish _ | .swap _ _
  | .swapWrite _ | .consolidate _ _ => inferInstanceAs (Decidable (_ ∧ True))

structure Filed (files : OrderedMap Id (List EventRow)) (segments left : List Written) : Prop where
  part : ∀ w ∈ left, w ∈ segments
  filed : ∀ w ∈ segments, w ∈ left ∨ files.get? w.1.segmentId = some w.2

structure Shelved (node : Node) (s : State) : Prop where
  recorded : s.catalog.Recorded
  distinct : s.claimed.Nodup
  unseen : ∀ id ∈ s.claimed, ∀ r ∈ s.catalog.segments.values, r.segmentId = id → r.tier = ""
  planned : ∀ holder batch segments left, s.turn = some holder →
    holder.stage = .writing batch segments left →
      segments = batch.plan.map (sealedSegment node batch) ∧ Filed s.files segments left
  swapped : ∀ (k : Nat) (swap : Swap), s.swaps[k]? = some swap → swap.published = false →
    Filed s.files swap.segments swap.left

def InSegment (s : State) (row : EventRow) : Prop :=
  ∃ m ∈ s.catalog.manifests, ∃ rows, s.files.get? m.segmentId = some rows ∧ row ∈ rows

theorem Shelved.empty {node : Node} : Shelved node .empty where
  recorded := Catalog.recorded_empty
  distinct := by simp [State.empty, State.claimed, State.sealClaims]
  unseen := by simp [State.empty, State.claimed, State.sealClaims]
  planned := by simp [State.empty]
  swapped := by simp [State.empty]

section
variable {node : Node} {s t : State} {row : EventRow}

theorem Shelved.live_unclaimed (shelved : Shelved node s) {m : Manifest}
    (live : m ∈ s.catalog.manifests) : m.segmentId ∉ s.claimed := by
  intro inside
  obtain ⟨record, tier, -⟩ := Catalog.mem_manifests live
  exact tier (shelved.unseen _ inside m record rfl)

theorem Shelved.kept (shelved : Shelved node s) (segments : t.catalog.segments = s.catalog.segments)
    (generation : t.catalog.generation = s.catalog.generation) (files : t.files = s.files)
    (installs : t.installs = s.installs) (swaps : t.swaps = s.swaps) (claims : t.sealClaims.Sublist s.sealClaims)
    (planned : ∀ holder batch segments left, t.turn = some holder → holder.stage = .writing batch segments left →
        segments = batch.plan.map (sealedSegment node batch) ∧ Filed s.files segments left) : Shelved node t := by
  have fewer : t.claimed.Sublist s.claimed := by
    unfold State.claimed
    rw [installs, swaps]
    exact claims.append (.refl _)
  refine ⟨?_, shelved.distinct.sublist fewer, ?_, ?_, ?_⟩
  · unfold Catalog.Recorded
    rw [segments, generation]
    exact shelved.recorded
  · rw [segments]
    exact fun id inside => shelved.unseen id (fewer.subset inside)
  · rw [files]
    exact planned
  · rw [files, swaps]
    exact shelved.swapped

theorem InSegment.kept (stored : InSegment s row) (segments : t.catalog.segments = s.catalog.segments)
    (files : t.files = s.files) : InSegment t row := by
  unfold InSegment Catalog.manifests at *
  rwa [segments, files]

theorem Shelved.stored_insert (shelved : Shelved node s) (stored : InSegment s row) {id : Id}
    (claimed : id ∈ s.claimed) {rows : List EventRow}
    (segments : t.catalog.segments = s.catalog.segments) (files : t.files = s.files.insert id rows) :
    InSegment t row := by
  obtain ⟨m, live, held, found, inside⟩ := stored
  refine ⟨m, ?_, held, ?_, inside⟩
  · unfold Catalog.manifests at *
    rwa [segments]
  · rw [files, get?_insert, if_neg]
    · exact found
    · rintro rfl
      exact shelved.live_unclaimed live claimed

theorem Filed.insert {files : OrderedMap Id (List EventRow)} {segments left : List Written}
    (filed : Filed files segments left) {id : Id} {rows : List EventRow}
    (other : ∀ w ∈ segments, w.1.segmentId ≠ id) : Filed (files.insert id rows) segments left where
  part := filed.part
  filed w inside := by
    rw [get?_insert, if_neg (other w inside)]
    exact filed.filed w inside

theorem Filed.wrote {files : OrderedMap Id (List EventRow)} {segments left : List Written}
    {w : Written} (filed : Filed files segments (w :: left))
    (distinct : (segments.map fun w => w.1.segmentId).Nodup) :
    Filed (files.insert w.1.segmentId w.2) segments left where
  part v inside := filed.part v (mem_cons_of_mem _ inside)
  filed v inside := by
    have own := filed.part w mem_cons_self
    rw [get?_insert]
    by_cases same : v.1.segmentId = w.1.segmentId
    · obtain rfl := inj_on_of_nodup_map distinct inside own same
      exact .inr (if_pos rfl)
    · rw [if_neg same]
      rcases filed.filed v inside with here | done
      · rcases mem_cons.mp here with rfl | later
        · exact absurd rfl same
        · exact .inl later
      · exact .inr done

section
variable {retire : List Id} {manifests : List Manifest} {locator : Locator} {checkpoint : Option Nat}

theorem Shelved.publish (shelved : Shelved node s)
    (published : s.catalog.publishInOneTransaction retire manifests locator checkpoint = some t.catalog)
    (released : s.claimed.Perm (manifests.map Manifest.segmentId ++ t.claimed))
    (planned : ∀ holder batch segments left, t.turn = some holder → holder.stage = .writing batch segments left →
        segments = batch.plan.map (sealedSegment node batch) ∧ Filed t.files segments left)
    (swapped : ∀ (k : Nat) (swap : Swap), t.swaps[k]? = some swap → swap.published = false →
      Filed t.files swap.segments swap.left) : Shelved node t := by
  obtain ⟨-, distinct, apart⟩ := List.nodup_append.mp (released.nodup_iff.mp shelved.distinct)
  refine ⟨shelved.recorded.published published, distinct, ?_, planned, swapped⟩
  intro id inside r there same
  obtain ⟨key, found⟩ := mem_values.mp there
  rcases Catalog.publish_records published found with old | ⟨_, -, equal⟩ | ⟨n, new, equal⟩
  · exact shelved.unseen id (released.symm.subset (mem_append_right _ inside)) r
      (mem_values.mpr ⟨key, old⟩) same
  · obtain rfl := congrArg Prod.snd equal
    rfl
  · obtain rfl := congrArg Prod.snd equal
    exact absurd same (apart n.segmentId (mem_map.mpr ⟨n, new, rfl⟩) id inside)

theorem Shelved.stored_publish (shelved : Shelved node s)
    (published : s.catalog.publishInOneTransaction retire manifests locator checkpoint = some t.catalog)
    (released : s.claimed.Perm (manifests.map Manifest.segmentId ++ t.claimed)) (files : t.files = s.files)
    (moved : ∀ m ∈ s.catalog.manifests, m.segmentId ∈ retire →
      ∀ rows ∈ s.files.get? m.segmentId, row ∈ rows → InSegment t row)
    (stored : InSegment s row) : InSegment t row := by
  obtain ⟨m, live, rows, found, inside⟩ := stored
  by_cases retired : m.segmentId ∈ retire
  · exact moved m live retired rows found inside
  · refine ⟨m, shelved.recorded.live_stays published live retired fun n new same => ?_, rows,
      by rw [files, found], inside⟩
    refine shelved.live_unclaimed live (released.symm.subset (mem_append_left _ ?_))
    exact mem_map.mpr ⟨n, new, same⟩

theorem Shelved.stored_new (shelved : Shelved node s) {segments : List Written}
    (published : s.catalog.publishInOneTransaction retire (segments.map Prod.fst) locator checkpoint = some t.catalog)
    (distinct : (segments.map fun w => w.1.segmentId).Nodup) {w : Written} (inside : w ∈ segments)
    (tier : w.1.tier ≠ "") (filed : t.files.get? w.1.segmentId = some w.2) (there : row ∈ w.2) : InSegment t row := by
  refine ⟨_, shelved.recorded.live_new published (by simpa [Function.comp_def] using distinct)
    (mem_map.mpr ⟨w, inside, rfl⟩) tier, w.2, filed, there⟩

end

/-! The writers of a segment: which ids they claim, and that no two claim the same. -/

theorem Shelved.seal_apart (shelved : Shelved node s) {id : Id} (first : id ∈ s.sealClaims) :
    id ∉ s.installs.flatMap Install.claims ∧ id ∉ s.swaps.flatMap Swap.claims := by
  obtain ⟨-, -, apart⟩ := List.nodup_append.mp shelved.distinct
  exact ⟨fun second => apart id first id (mem_append_left _ second) rfl,
    fun second => apart id first id (mem_append_right _ second) rfl⟩

theorem Shelved.install_apart (shelved : Shelved node s) {id : Id} (first : id ∈ s.installs.flatMap Install.claims) :
    id ∉ s.sealClaims ∧ id ∉ s.swaps.flatMap Swap.claims := by
  obtain ⟨-, rest, -⟩ := List.nodup_append.mp shelved.distinct
  obtain ⟨-, -, apart⟩ := List.nodup_append.mp rest
  exact ⟨fun second => (shelved.seal_apart second).1 first,
    fun second => apart id first id second rfl⟩

theorem Swap.mem_claims {swap : Swap} (pending : swap.published = false) {w : Written}
    (inside : w ∈ swap.segments) : w.1.segmentId ∈ swap.claims := by
  simp only [Swap.claims, pending]
  exact mem_map.mpr ⟨w, inside, rfl⟩

theorem State.mem_swapClaims {k : Nat} {swap : Swap} (there : s.swaps[k]? = some swap)
    (pending : swap.published = false) {w : Written} (inside : w ∈ swap.segments) :
    w.1.segmentId ∈ s.swaps.flatMap Swap.claims :=
  mem_flatMap.mpr ⟨swap, mem_of_getElem? there, Swap.mem_claims pending inside⟩

theorem Shelved.swap_distinct (shelved : Shelved node s) {k : Nat} {swap : Swap}
    (there : s.swaps[k]? = some swap) (pending : swap.published = false) :
    (swap.segments.map fun w => w.1.segmentId).Nodup := by
  obtain ⟨-, rest, -⟩ := List.nodup_append.mp shelved.distinct
  obtain ⟨-, swaps, -⟩ := List.nodup_append.mp rest
  have own := nodup_flatMap.mp swaps |>.1 swap (mem_of_getElem? there)
  simpa only [Swap.claims, pending, Bool.false_eq_true, if_false] using own

theorem map_sealedSegment_id (batch : Drained) :
    (batch.plan.map (sealedSegment node batch)).map (fun w => w.1.segmentId) = batch.plan.map Prod.snd := by
  rw [map_map]
  rfl

theorem map_fst_plan {m : Memory} {segmentIds : List Id} (length : segmentIds.length = m.openProjects.entries.length) :
    (m.drain segmentIds).2.plan.map Prod.fst = m.openProjects.entries.map Prod.fst :=
  map_fst_zip (by simp [length])

theorem mem_plan_drain {m : Memory} {segmentIds : List Id}
    (projects : ∀ row ∈ m.openRows, (projectOf row, ()) ∈ m.openProjects.entries)
    (length : segmentIds.length = m.openProjects.entries.length) :
    ∀ row ∈ m.openRows, ∃ id, (projectOf row, id) ∈ (m.drain segmentIds).2.plan := by
  intro row inside
  have there : projectOf row ∈ (m.drain segmentIds).2.plan.map Prod.fst :=
    map_fst_plan length ▸ mem_map.mpr ⟨_, projects row inside, rfl⟩
  obtain ⟨⟨project, id⟩, mem, same⟩ := mem_map.mp there
  obtain rfl : project = projectOf row := same
  exact ⟨id, mem⟩

theorem map_snd_plan {m : Memory} {segmentIds : List Id} (length : segmentIds.length = m.openProjects.entries.length) :
    (m.drain segmentIds).2.plan.map Prod.snd = segmentIds := by
  simp only [Memory.drain]
  rw [map_snd_zip]
  simp [length]

variable (shelved : Shelved node s)
include shelved

theorem Shelved.sealing {e : SealEvent}
    (allowed : KeepsSegments s (.sealing e)) (next : step node s (.sealing e) = some t) :
    Shelved node t ∧ ∀ row, InSegment s row → InSegment t row := by
  obtain ⟨m, holder, up, turn, moved⟩ := step_sealing next
  have claims : s.sealClaims = holder.stage.claims := by simp [State.sealClaims, turn]
  cases moved with
  | stops _ result settled ends =>
    exact ⟨shelved.kept rfl rfl rfl rfl rfl (nil_sublist _) (by rintro _ _ _ _ ⟨⟩),
      fun row stored => stored.kept rfl rfl⟩
  | checked stage =>
    refine ⟨shelved.kept rfl rfl rfl rfl rfl (nil_sublist _) ?_,
      fun row stored => stored.kept rfl rfl⟩
    rintro _ _ _ _ ⟨⟩ ⟨⟩
  | drained segmentIds stage free rows length =>
    have ids := @map_snd_plan m segmentIds length
    have before : s.claimed = s.installs.flatMap Install.claims ++ s.swaps.flatMap Swap.claims := by
      rw [State.claimed, claims, stage]
      rfl
    have now : State.claimed { s.running (m.drain segmentIds).1 with
        turn := some { holder with stage := .drained (m.drain segmentIds).2 } } =
        segmentIds ++ s.claimed := by
      rw [before]
      exact congrArg (· ++ _) ids
    obtain ⟨⟨distinct, fresh⟩, -⟩ := allowed
    refine ⟨⟨shelved.recorded, ?_, ?_, ?_, shelved.swapped⟩, fun row stored => stored.kept rfl rfl⟩
    · rw [now]
      refine List.nodup_append.mpr ⟨distinct, shelved.distinct, ?_⟩
      rintro id new _ old rfl
      exact (fresh id new).1 old
    · rw [now]
      intro id inside
      rcases mem_append.mp inside with new | old
      · exact (fresh id new).2
      · exact shelved.unseen id old
    · rintro _ _ _ _ ⟨⟩ ⟨⟩
  | emptied now batch stage nothing =>
    refine ⟨shelved.kept rfl rfl rfl rfl rfl (nil_sublist _) ?_,
      fun row stored => stored.kept rfl rfl⟩
    rintro _ _ _ _ ⟨⟩ ⟨⟩
  | built now batch stage =>
    refine ⟨shelved.kept rfl rfl rfl rfl rfl ?_ ?_, fun row stored => stored.kept rfl rfl⟩
    · rw [claims, stage]
      simp only [State.sealClaims, Option.elim, SealStage.claims, map_sealedSegment_id]
      exact .refl _
    · rintro _ _ _ _ ⟨⟩ ⟨⟩
      exact ⟨rfl, fun w inside => inside, fun w inside => .inl inside⟩
  | wrote batch segments w left stage =>
    obtain ⟨plan, filed⟩ := shelved.planned holder batch segments _ turn stage
    have own : ∀ v ∈ segments, v.1.segmentId ∈ s.sealClaims := by
      intro v inside
      rw [claims, stage]
      exact mem_map.mpr ⟨v, inside, rfl⟩
    have distinct : (segments.map fun w => w.1.segmentId).Nodup := by
      have mine := (List.nodup_append.mp shelved.distinct).1
      rwa [claims, stage] at mine
    have mine := own w (filed.part w mem_cons_self)
    have same : State.claimed { s with
        files := s.files.insert w.1.segmentId w.2
        turn := some { holder with stage := .writing batch segments left } } = s.claimed := by
      rw [State.claimed, State.claimed, claims, stage]
      rfl
    refine ⟨⟨shelved.recorded, by rw [same]; exact shelved.distinct,
      by rw [same]; exact shelved.unseen, ?_, ?_⟩, fun row stored =>
        shelved.stored_insert stored (mem_append_left _ mine) rfl rfl⟩
    · rintro _ _ _ _ ⟨⟩ ⟨⟩
      exact ⟨plan, filed.wrote distinct⟩
    · intro k swap there pending
      refine (shelved.swapped k swap there pending).insert fun v inside equal => ?_
      exact (shelved.seal_apart mine).2 (equal ▸ State.mem_swapClaims there pending inside)
  | published batch segments catalog stage published =>
    have released : s.claimed.Perm ((segments.map Prod.fst).map Manifest.segmentId ++
        State.claimed { s with
          catalog
          turn := some { holder with
            stage := .published batch ((segments.map fun w => w.1.segmentId).getLast?) } }) := by
      rw [State.claimed, claims, stage, map_map]
      exact .refl _
    refine ⟨shelved.publish published released ?_ shelved.swapped,
      fun row stored => shelved.stored_publish published released rfl (by simp) stored⟩
    rintro _ _ _ _ ⟨⟩ ⟨⟩
  | reopened _ batch error now stage ends =>
    exact ⟨shelved.kept rfl rfl rfl rfl rfl (nil_sublist _) (by rintro _ _ _ _ ⟨⟩),
      fun row stored => stored.kept rfl rfl⟩
  | dropped batch written stage =>
    refine ⟨shelved.kept rfl rfl rfl rfl rfl (nil_sublist _) ?_,
      fun row stored => stored.kept rfl rfl⟩
    rintro _ _ _ _ ⟨⟩ ⟨⟩
  | reclaims written fault wal stage positive ran =>
    refine ⟨shelved.kept rfl rfl rfl rfl rfl (nil_sublist _) ?_,
      fun row stored => stored.kept rfl rfl⟩
    rintro _ _ _ _ ⟨⟩ ⟨⟩

theorem Shelved.pushed {ids : List Id} (new : NewIds s ids)
    (segments : t.catalog.segments = s.catalog.segments) (generation : t.catalog.generation = s.catalog.generation)
    (claimed : t.claimed.Perm (ids ++ s.claimed)) (files : t.files = s.files) (turn : t.turn = s.turn)
    (swapped : ∀ (k : Nat) (swap : Swap), t.swaps[k]? = some swap → swap.published = false →
      Filed s.files swap.segments swap.left) : Shelved node t := by
  obtain ⟨distinct, fresh⟩ := new
  refine ⟨?_, ?_, ?_, ?_, ?_⟩
  · unfold Catalog.Recorded
    rw [segments, generation]
    exact shelved.recorded
  · refine claimed.nodup_iff.mpr (List.nodup_append.mpr ⟨distinct, shelved.distinct, ?_⟩)
    rintro id mine _ old rfl
    exact (fresh id mine).1 old
  · intro id inside
    rw [segments]
    rcases mem_append.mp (claimed.subset inside) with mine | old
    · exact (fresh id mine).2
    · exact shelved.unseen id old
  · rw [turn, files]
    exact shelved.planned
  · rw [files]
    exact swapped

theorem Shelved.installWrite {k : Nat} {install : Install}
    (there : s.installs[k]? = some install) (segments : t.catalog = s.catalog)
    (files : t.files = s.files.insert install.segment.1.segmentId install.segment.2)
    (turn : t.turn = s.turn) (swaps : t.swaps = s.swaps)
    (installs : t.installs = s.installs.set k { install with written := true }) :
    Shelved node t ∧ ∀ row, InSegment s row → InSegment t row := by
  have mine : install.segment.1.segmentId ∈ s.installs.flatMap Install.claims :=
    mem_flatMap.mpr ⟨install, mem_of_getElem? there, mem_singleton_self _⟩
  obtain ⟨notSeal, notSwap⟩ := shelved.install_apart mine
  have kept : (s.installs.flatMap Install.claims).Perm ([] ++
      (s.installs.set k { install with written := true }).flatMap Install.claims) :=
    perm_flatMap_set there (.refl _)
  have same : s.claimed.Perm t.claimed := by
    unfold State.claimed State.sealClaims
    rw [turn, swaps, installs]
    exact .append_left _ (.append_right _ kept)
  refine ⟨⟨segments ▸ shelved.recorded, same.nodup_iff.mp shelved.distinct, ?_, ?_, ?_⟩,
    fun row stored => shelved.stored_insert stored
      (mem_append_right _ (mem_append_left _ mine)) (by rw [segments]) files⟩
  · rw [segments]
    exact fun id inside => shelved.unseen id (same.symm.subset inside)
  · intro holder batch written left held stage
    rw [turn] at held
    obtain ⟨plan, filed⟩ := shelved.planned holder batch written left held stage
    rw [files]
    refine ⟨plan, filed.insert fun v inside equal => notSeal ?_⟩
    rw [State.sealClaims, held, ← equal]
    simp only [Option.elim, stage]
    exact mem_map.mpr ⟨v, inside, rfl⟩
  · intro j swap found pending
    rw [swaps] at found
    rw [files]
    refine (shelved.swapped j swap found pending).insert fun v inside equal => notSwap ?_
    rw [← equal]
    exact State.mem_swapClaims found pending inside

theorem Shelved.swapWrite {k : Nat} {retire : List Id} {segments left : List Written} {w : Written} (there : s.swaps[k]? = some ⟨retire, segments, w :: left, false⟩) :
    let t := { s with
      files := s.files.insert w.1.segmentId w.2
      swaps := s.swaps.set k ⟨retire, segments, left, false⟩ }
    Shelved node t ∧ ∀ row, InSegment s row → InSegment t row := by
  have filed := shelved.swapped k _ there rfl
  have mine := State.mem_swapClaims there rfl (filed.part w mem_cons_self)
  have kept : (s.swaps.flatMap Swap.claims).Perm ([] ++
      (s.swaps.set k ⟨retire, segments, left, false⟩).flatMap Swap.claims) :=
    perm_flatMap_set there (.refl _)
  have same : s.claimed.Perm (State.claimed { s with
      files := s.files.insert w.1.segmentId w.2
      swaps := s.swaps.set k ⟨retire, segments, left, false⟩ }) :=
    .append_left _ (.append_left _ kept)
  refine ⟨⟨shelved.recorded, same.nodup_iff.mp shelved.distinct,
    fun id inside => shelved.unseen id (same.symm.subset inside), ?_, ?_⟩, fun row stored =>
      shelved.stored_insert stored (mem_append_right _ (mem_append_right _ mine)) rfl rfl⟩
  · intro holder batch written rest held stage
    obtain ⟨plan, done⟩ := shelved.planned holder batch written rest held stage
    refine ⟨plan, done.insert fun v inside equal => ?_⟩
    refine (@Shelved.seal_apart node s shelved v.1.segmentId ?_).2 (equal ▸ mine)
    rw [State.sealClaims, held]
    simp only [Option.elim, stage]
    exact mem_map.mpr ⟨v, inside, rfl⟩
  · intro j swap found pending
    rcases getElem?_set_cases found with ⟨rfl, rfl⟩ | ⟨other, before⟩
    · exact filed.wrote (shelved.swap_distinct there rfl)
    · refine (shelved.swapped j swap before pending).insert fun v inside equal => other ?_
      obtain ⟨-, rest, -⟩ := List.nodup_append.mp shelved.distinct
      exact eq_of_nodup_flatMap (List.nodup_append.mp rest).2.1 before there
        (Swap.mem_claims pending inside)
        (equal ▸ Swap.mem_claims rfl (filed.part w mem_cons_self))

theorem Shelved.installPublish {k : Nat} {install : Install} {locator : Locator} {catalog : Catalog} (there : s.installs[k]? = some install)
    (published : s.catalog.publishWithLocator [install.segment.1] locator = some catalog) :
    let t := { s with catalog, installs := s.installs.eraseIdx k }
    Shelved node t ∧ ∀ row, InSegment s row → InSegment t row := by
  have released : s.claimed.Perm ([install.segment.1].map Manifest.segmentId ++
      State.claimed { s with catalog, installs := s.installs.eraseIdx k }) := by
    refine .trans (.append_left _ (.append_right _ (perm_flatMap_eraseIdx there))) ?_
    rw [append_assoc]
    exact perm_append_comm_assoc _ _ _
  exact ⟨shelved.publish published released shelved.planned shelved.swapped, fun row stored =>
    shelved.stored_publish published released rfl (by simp) stored⟩

theorem Shelved.swapPublish {k : Nat} {retire : List Id} {segments : List Written} {locator : Locator}
    {catalog : Catalog}
    (there : s.swaps[k]? = some ⟨retire, segments, [], false⟩)
    (rows : SameRows s ⟨retire, segments, [], false⟩)
    (published : s.catalog.swapWithLocator retire (segments.map Prod.fst) locator = some catalog) :
    let t := { s with catalog, swaps := s.swaps.set k ⟨retire, segments, [], true⟩ }
    Shelved node t ∧ ∀ row, InSegment s row → InSegment t row := by
  have filed := shelved.swapped k _ there rfl
  have released : s.claimed.Perm ((segments.map Prod.fst).map Manifest.segmentId ++
      State.claimed { s with catalog, swaps := s.swaps.set k ⟨retire, segments, [], true⟩ }) := by
    have own : (Swap.claims ⟨retire, segments, [], false⟩).Perm
        ((segments.map Prod.fst).map Manifest.segmentId ++ Swap.claims ⟨retire, segments, [], true⟩) := by
      simp [Swap.claims, Function.comp_def]
    refine .trans (.append_left _ (.append_left _ (perm_flatMap_set there own))) ?_
    refine .trans (.append_left _ (perm_append_comm_assoc _ _ _)) ?_
    exact perm_append_comm_assoc _ _ _
  refine ⟨shelved.publish published released shelved.planned ?_, fun row stored =>
    shelved.stored_publish published released rfl ?_ stored⟩
  · intro j swap found pending
    rcases getElem?_set_cases found with ⟨rfl, rfl⟩ | ⟨other, before⟩
    · cases pending
    · exact shelved.swapped j swap before pending
  · intro m live retired held found inside
    obtain ⟨w, written, has⟩ := rows.2 m live retired held found row inside
    refine shelved.stored_new published (shelved.swap_distinct there rfl) written
      (rows.1 w written) ?_ has
    rcases filed.filed w written with later | done
    · cases later
    · exact done

theorem Shelved.step {e : Event} (allowed : KeepsSegments s e)
    (next : step node s e = some t) : Shelved node t ∧ ∀ row, InSegment s row → InSegment t row := by
  have same : t.catalog.segments = s.catalog.segments → t.catalog.generation = s.catalog.generation →
      t.files = s.files → t.installs = s.installs → t.swaps = s.swaps → t.turn = s.turn →
      Shelved node t ∧ ∀ row, InSegment s row → InSegment t row := by
    intro segments generation files installs swaps turn
    refine ⟨shelved.kept segments generation files installs swaps ?_ (turn ▸ shelved.planned),
      fun row stored => stored.kept segments files⟩
    unfold State.sealClaims
    rw [turn]
  cases e with
  | openLog =>
    simp only [Segmented.step] at next
    split at next
    · cases next
      exact same rfl rfl rfl rfl rfl rfl
    · cases next
  | recordCheckpoint =>
    simp only [Segmented.step] at next
    split at next
    · cases next
      exact same rfl rfl rfl rfl rfl rfl
    · cases next
  | openWith now =>
    simp only [Segmented.step] at next
    split at next
    · obtain ⟨m, ran, again⟩ := Option.bind_eq_some_iff.mp next
      cases again
      exact same rfl rfl rfl rfl rfl rfl
    · cases next
  | crash =>
    obtain ⟨m, up, again⟩ := Option.bind_eq_some_iff.mp next
    cases again
    exact ⟨⟨shelved.recorded, .nil, by rintro id ⟨⟩, by rintro _ _ _ _ ⟨⟩, by simp⟩,
      fun row stored => stored.kept rfl rfl⟩
  | commit sourceId batchId rows =>
    obtain ⟨m, up, again⟩ := Option.bind_eq_some_iff.mp next
    cases again
    exact same rfl rfl rfl rfl rfl rfl
  | call i e =>
    obtain ⟨m, c, t', d, up, here, called, rfl⟩ := step_call next
    cases called <;> exact same rfl rfl rfl rfl rfl rfl
  | log e =>
    obtain ⟨m, up, more⟩ := Option.bind_eq_some_iff.mp next
    split at more
    · obtain ⟨wal, -, again⟩ := Option.bind_eq_some_iff.mp more
      cases again
      exact same rfl rfl rfl rfl rfl rfl
    · cases more
  | sealStart owner =>
    obtain ⟨m, up, more⟩ := Option.bind_eq_some_iff.mp next
    split at more
    · cases more
      refine ⟨shelved.kept rfl rfl rfl rfl rfl (nil_sublist _) ?_,
        fun row stored => stored.kept rfl rfl⟩
      rintro _ _ _ _ ⟨⟩ ⟨⟩
    · split at more
      · cases more
        refine ⟨shelved.kept rfl rfl rfl rfl rfl (nil_sublist _) ?_,
          fun row stored => stored.kept rfl rfl⟩
        rintro _ _ _ _ ⟨⟩ ⟨⟩
      · cases more
    · cases more
  | sealing e => exact shelved.sealing allowed next
  | install segment =>
    obtain ⟨m, up, more⟩ := Option.bind_eq_some_iff.mp next
    obtain ⟨new, -⟩ := allowed
    simp only [Event.brings] at new
    split at more
    · cases more
      exact same rfl rfl rfl rfl rfl rfl
    · rename_i absent
      rw [if_neg absent] at new
      cases more
      refine ⟨shelved.pushed new rfl rfl (perm_iff_count.mpr fun id => ?_) rfl rfl
        shelved.swapped, fun row stored => stored.kept rfl rfl⟩
      simp only [State.claimed, State.sealClaims, flatMap_append, count_append,
        flatMap_singleton, Install.claims, received]
      omega
  | installWrite k =>
    obtain ⟨m, up, more⟩ := Option.bind_eq_some_iff.mp next
    obtain ⟨install, there, again⟩ := Option.bind_eq_some_iff.mp more
    cases again
    exact shelved.installWrite there rfl rfl rfl rfl rfl
  | installPublish k =>
    obtain ⟨m, up, more⟩ := Option.bind_eq_some_iff.mp next
    obtain ⟨install, there, again⟩ := Option.bind_eq_some_iff.mp more
    split at again
    · obtain ⟨catalog, published, last⟩ := Option.bind_eq_some_iff.mp again
      cases last
      exact shelved.installPublish there published
    · cases again
  | swap retire replacements =>
    obtain ⟨m, up, more⟩ := Option.bind_eq_some_iff.mp next
    obtain ⟨new, -⟩ := allowed
    simp only [Event.brings] at new
    split at more
    · cases more
      exact same rfl rfl rfl rfl rfl rfl
    · rename_i full
      rw [if_neg full] at new
      cases more
      refine ⟨shelved.pushed new rfl rfl (perm_iff_count.mpr fun id => ?_) rfl rfl ?_,
        fun row stored => stored.kept rfl rfl⟩
      · have ids : Swap.claims ⟨retire, replacements.map fun r => replacement node r.1 r.2.1 r.2.2,
            replacements.map fun r => replacement node r.1 r.2.1 r.2.2, false⟩ =
            replacements.map fun r => r.2.1 := by
          simp [Swap.claims, Function.comp_def, replacement, describe]
        simp only [State.claimed, State.sealClaims, flatMap_append, count_append,
          flatMap_singleton, ids]
        omega
      · intro k swap found pending
        rcases getElem?_push_cases found with ⟨-, rfl⟩ | ⟨-, before⟩
        · exact ⟨fun w inside => inside, fun w inside => .inl inside⟩
        · exact shelved.swapped k swap before pending
  | swapWrite k =>
    obtain ⟨m, up, more⟩ := Option.bind_eq_some_iff.mp next
    split at more
    · rename_i there
      cases more
      exact shelved.swapWrite there
    · cases more
  | swapPublish k =>
    obtain ⟨m, up, more⟩ := Option.bind_eq_some_iff.mp next
    split at more
    · rename_i there _
      obtain ⟨catalog, published, last⟩ := Option.bind_eq_some_iff.mp more
      cases last
      exact shelved.swapPublish there (allowed.2 _ there) published
    · cases more
  | consolidate k bucket =>
    obtain ⟨m, up, more⟩ := Option.bind_eq_some_iff.mp next
    split at more
    · obtain ⟨catalog, done, last⟩ := Option.bind_eq_some_iff.mp more
      cases last
      obtain ⟨runs, rfl⟩ := Catalog.consolidate_runs done
      exact same rfl rfl rfl rfl rfl rfl
    · cases more

omit shelved

end
end TallyOwl.Segmented
