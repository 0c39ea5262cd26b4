import TallyOwl.Lib.Buckets
import TallyOwl.Lib.Chunks
import TallyOwl.Store.Compact.Swap

/-! Cold consolidation (`consolidate_cold`). A group is due by how many segments its bytes need at the
target size, and it is cut by a whole number of rows to a segment at a whole number of bytes to a row. -/
namespace TallyOwl.Compact
open Lib Format Locate Segmented LookupEvent List OrderedMap

/-- A group that was swapped, its visible rows and the rows of each segment they were cut into. -/
structure Consolidation where
  group : List Manifest
  rows : List EventRow
  outputs : List (List EventRow)

structure Consolidated where
  store : Store
  batch : Nat
  rowsErased : Nat
  consolidatedSources : Nat
  consolidatedOutputs : Nat
  abandonedForSpace : Bool
  swaps : List Consolidation

def bytesOf (group : List Manifest) : ℕ := (group.map Manifest.byteCount).sum

def coldKey (m : Manifest) : ℤ ×ₗ Id ×ₗ Id :=
  toLex (bucketOf m.occurredRange.1, toLex (m.workspaceId, m.projectId))

def coldGroups (cutoff : Int) (manifests : List Manifest) : List (List Manifest) :=
  ((manifests.filter fun m => m.occurredRange.2 < cutoff).foldl (fun buckets m => buckets.push (coldKey m) m)
    (∅ : OrderedMap (ℤ ×ₗ Id ×ₗ Id) (List Manifest))).values

def takenFrom (budget : ℕ) (takenBytes take : ℕ) : List Manifest → ℕ × ℕ
  | [] => (takenBytes, take)
  | m :: rest =>
      if 0 < take ∧ budget < takenBytes + m.byteCount then (takenBytes, take)
      else takenFrom budget (takenBytes + m.byteCount) (take + 1) rest

inductive Due where
  | skips
  | stops
  | takes (group : List Manifest) (takenBytes : ℕ)

section
variable (node : Node) (settings : CompactionSettings)

def needed (bytes : ℕ) : ℕ := max (divCeil bytes settings.coldGroupTargetBytes) 1

def dueOf (batch : ℕ) (group : List Manifest) : Due :=
  if group.length ≤ needed settings (bytesOf group) then .skips
  else
    let sorted := group.insertionSort fun a b => a.byteCount ≤ b.byteCount
    let (takenBytes, take) := takenFrom settings.coldGroupBatchBytes 0 0 sorted
    let group := sorted.take take
    if group.length ≤ needed settings takenBytes then .skips
    else if settings.coldGroupBatchBytes < batch + takenBytes ∧ 0 < batch then .stops
    else .takes group takenBytes

def gather (s : Store) : List Manifest → Except StoreError (List EventRow × ℕ)
  | [] => .ok ([], 0)
  | m :: rest =>
      match readSegmentRows s m with
      | .error e => .error e
      | .ok read =>
          let kept := read.filter fun row => !hiddenBy node.floatText s.tombstones row
          match gather s rest with
          | .error e => .error e
          | .ok (rows, erased) => .ok (kept ++ rows, read.length - kept.length + erased)

def sortKey (groupBy : String) (row : EventRow) : WithBot String ×ₗ ℤ :=
  toLex ((((row.property groupBy).map (·.toDisplay node.floatText) : Option String) : WithBot String), row.occurredAt)

def rowsForEachOutput (takenBytes : ℕ) (rows : List EventRow) : ℕ :=
  let total := max rows.length 1
  let bytesForEachRow := max (takenBytes / total) 1
  min (max (settings.coldGroupTargetBytes / bytesForEachRow) 1) total

/-- What each output is described by: the first of the group, with the log ranges of all. -/
def sourceOf (group : List Manifest) : Option Manifest :=
  group.head?.map fun first => { first with
    logRange := group.foldl (fun range m => (min range.1 m.logRange.1, max range.2 m.logRange.2)) (2 ^ 64 - 1, 0) }

def consolidateAll (groupBy : String) (o : ℕ → Outside) (c : Consolidated) :
    List (List Manifest) → Consolidated × Except StoreError Unit
  | [] => (c, .ok ())
  | group :: rest =>
      match dueOf settings c.batch group with
      | .skips => consolidateAll groupBy o c rest
      | .stops => (c, .ok ())
      | .takes group takenBytes =>
          match gather node c.store group with
          | .error e => (c, .error e)
          | .ok (found, erased) =>
              let rows := found.insertionSort fun a b => sortKey node groupBy a ≤ sortKey node groupBy b
              let outputs := chunks (rowsForEachOutput settings takenBytes rows) rows
              let retire := group.map Manifest.segmentId
              let replacements := (sourceOf group).toList.flatMap fun source => outputs.map fun chunk => (source, chunk)
              let (store, result) := swapSegments node (o c.swaps.length) c.store retire replacements
              let swaps := if store.catalog.generation = c.store.catalog.generation then c.swaps
                else c.swaps ++ [⟨group, rows, outputs⟩]
              let c := { c with store, swaps, batch := c.batch + takenBytes, rowsErased := c.rowsErased + erased }
              match result with
              | .ok _ => consolidateAll groupBy o { c with
                  consolidatedSources := c.consolidatedSources + retire.length
                  consolidatedOutputs := c.consolidatedOutputs + replacements.length } rest
              | .error (.exhausted _) => ({ c with abandonedForSpace := true }, .ok ())
              | .error e => (c, .error e)

def consolidateCold (now : Int) (o : ℕ → Outside) (s : Store) : Consolidated × Except StoreError Unit :=
  let start : Consolidated := ⟨s, 0, 0, 0, 0, false, []⟩
  if settings.coldGroupAfterMs ≤ 0 then (start, .ok ())
  else
    match settings.groupBy with
    | none => (start, .ok ())
    | some groupBy =>
        consolidateAll node settings groupBy o start (coldGroups (now - settings.coldGroupAfterMs) s.catalog.manifests)

/-- One pass after another, each at its own time, over a store that nothing else changes. -/
def runPasses : List (Int × (ℕ → Outside)) → Store → Store × List Consolidation
  | [], s => (s, [])
  | (now, o) :: rest, s =>
      let pass := (consolidateCold node settings now o s).1
      let later := runPasses rest pass.store
      (later.1, pass.swaps ++ later.2)

end

/-- The rows, in one segment fewer than the group has, come out at the target size: as many rows to a
segment as that takes, at the bytes a row has. -/
def FitsFewer (settings : CompactionSettings) (c : Consolidation) : Prop :=
  c.rows.length < c.group.length ∨
    divCeil c.rows.length (c.group.length - 1) * max (bytesOf c.group / c.rows.length) 1 ≤
      settings.coldGroupTargetBytes

section
variable {settings : CompactionSettings}

theorem divCeil_le_iff {a b n : ℕ} (positive : 0 < b) : divCeil a b ≤ n ↔ a ≤ n * b := by
  unfold divCeil
  split
  · rename_i whole
    rw [Nat.div_le_iff_le_mul_add_pred positive]
    have parts := Nat.div_add_mod a b
    rw [whole, Nat.add_zero] at parts
    constructor
    · intro le
      rw [← parts, Nat.mul_comm]
      refine Nat.mul_le_mul_right _ ?_
      by_contra more
      have larger := Nat.mul_le_mul_left b (Nat.lt_of_not_le more)
      rw [Nat.mul_succ, parts] at larger
      omega
    · intro le
      rw [Nat.mul_comm]
      omega
  · rename_i rest
    rw [Nat.succ_le_iff, Nat.div_lt_iff_lt_mul positive]
    exact ⟨le_of_lt, fun le => lt_of_le_of_ne le fun same => rest (by rw [same, Nat.mul_mod_left])⟩

theorem outputs_lt_iff {group : List Manifest} {rows : List EventRow} {outputs : List (List EventRow)}
    (several : 2 ≤ group.length) :
    (chunks (rowsForEachOutput settings (bytesOf group) rows) rows).length < group.length ↔
      FitsFewer settings ⟨group, rows, outputs⟩ := by
  obtain ⟨d, positive, same⟩ : ∃ d, 0 < d ∧ group.length = d + 1 := ⟨group.length - 1, by omega, by omega⟩
  unfold FitsFewer rowsForEachOutput
  rw [length_chunks, same, Nat.add_sub_cancel, Nat.lt_succ_iff]
  rcases Nat.eq_zero_or_pos rows.length with none | some
  · simp [none, divCeil]
  · have total : max rows.length 1 = rows.length := max_eq_left some
    rw [total]
    dsimp only
    set r := rows.length
    set b := max (bytesOf group / r) 1 with bytes
    have each : 0 < b := by omega
    set q := settings.coldGroupTargetBytes / b with quotient
    have fewer : divCeil r d * b ≤ settings.coldGroupTargetBytes ↔ r ≤ q * d := by
      rw [← Nat.le_div_iff_mul_le each, divCeil_le_iff positive]
    rw [fewer, divCeil_le_iff (by omega)]
    rcases Nat.lt_or_ge r (max q 1) with much | little
    · have large : r < q := by omega
      rw [min_eq_right much.le]
      exact iff_of_true (Nat.le_mul_of_pos_left _ positive)
        (.inr (large.le.trans (Nat.le_mul_of_pos_right _ positive)))
    · rw [min_eq_left little]
      rcases Nat.eq_zero_or_pos q with zero | one
      · rw [zero]
        simp
        omega
      · rw [max_eq_left one, Nat.mul_comm]
        have wide : d ≤ q * d := Nat.le_mul_of_pos_left _ one
        omega

end

section
variable {node : Node} {settings : CompactionSettings} {s : Store} {o : ℕ → Outside}

theorem takenFrom_spec {budget : ℕ} {ms : List Manifest} (takenBytes take : ℕ) :
    ∃ n ≤ ms.length, takenFrom budget takenBytes take ms = (takenBytes + bytesOf (ms.take n), take + n) := by
  induction ms generalizing takenBytes take with
  | nil => exact ⟨0, le_rfl, by simp [takenFrom, bytesOf]⟩
  | cons m rest ih =>
    unfold takenFrom
    split
    · exact ⟨0, Nat.zero_le _, by simp [bytesOf]⟩
    · obtain ⟨n, within, same⟩ := ih (takenBytes + m.byteCount) (take + 1)
      refine ⟨n + 1, Nat.succ_le_succ within, ?_⟩
      rw [same]
      simp [bytesOf, Nat.add_assoc, Nat.add_comm 1]

theorem takes_of_dueOf {batch : ℕ} {bucket group : List Manifest} {takenBytes : ℕ}
    (due : dueOf settings batch bucket = .takes group takenBytes) :
    takenBytes = bytesOf group ∧ 2 ≤ group.length ∧ ∃ n, group = (bucket.insertionSort
      fun a b => a.byteCount ≤ b.byteCount).take n := by
  unfold dueOf at due
  split at due
  · cases due
  · obtain ⟨n, -, same⟩ := @takenFrom_spec settings.coldGroupBatchBytes
      (bucket.insertionSort fun a b => a.byteCount ≤ b.byteCount) 0 0
    simp only [same, Nat.zero_add] at due
    split at due
    · cases due
    · rename_i many
      split at due
      · cases due
      · obtain ⟨rfl, rfl⟩ := Due.takes.inj due
        refine ⟨rfl, ?_, n, rfl⟩
        unfold needed at many
        omega

/-- The segments of the groups to come are live, and each is in one group. -/
structure Standing (s : Store) (groups : List (List Manifest)) : Prop where
  distinct : (groups.flatten.map Manifest.segmentId).Nodup
  live : ∀ m ∈ groups.flatten, m.segmentId ∈ s.catalog.manifests.map Manifest.segmentId ∧ m.tier ≠ ""

/-- What a stretch of a pass made of the store, swap by swap. -/
structure Progress (settings : CompactionSettings) (s s' : Store) (made : List Consolidation) : Prop where
  recorded : s'.catalog.Recorded
  cut : ∀ c ∈ made, 2 ≤ c.group.length ∧
    c.outputs = chunks (rowsForEachOutput settings (bytesOf c.group) c.rows) c.rows
  fewer : s'.catalog.manifests.length + (made.map fun c => c.group.length).sum ≤
    s.catalog.manifests.length + (made.map fun c => c.outputs.length).sum

theorem Progress.refl (recorded : s.catalog.Recorded) : Progress settings s s [] :=
  ⟨recorded, by simp, le_rfl⟩

theorem Progress.trans {t u : Store} {made more : List Consolidation} (first : Progress settings s t made)
    (second : Progress settings t u more) : Progress settings s u (made ++ more) := by
  refine ⟨second.recorded, fun c inside => ?_, ?_⟩
  · exact (mem_append.mp inside).elim (first.cut c) (second.cut c)
  · have one := first.fewer
    have two := second.fewer
    simp only [map_append, sum_append]
    omega

theorem length_replacements {group : List Manifest} {outputs : List (List EventRow)} (some : group ≠ []) :
    ((sourceOf group).toList.flatMap fun source => outputs.map fun chunk => (source, chunk)).length =
      outputs.length := by
  obtain ⟨first, rest, rfl⟩ := exists_cons_of_ne_nil some
  simp [sourceOf]

theorem tier_replacements {group : List Manifest} {outputs : List (List EventRow)}
    (tiers : ∀ m ∈ group, m.tier ≠ "") {r : Manifest × List EventRow}
    (inside : r ∈ (sourceOf group).toList.flatMap fun source => outputs.map fun chunk => (source, chunk)) :
    r.1.tier ≠ "" := by
  obtain ⟨source, there, made⟩ := mem_flatMap.mp inside
  obtain ⟨chunk, -, rfl⟩ := mem_map.mp made
  obtain ⟨first, head, rfl⟩ := Option.map_eq_some_iff.mp (Option.mem_toList.mp there)
  exact tiers first (mem_of_mem_head? head)

theorem progress_of_swaps {s' : Store} {out : Outside} {bucket group : List Manifest} {rest : List (List Manifest)}
    {rows : List EventRow} (recorded : s.catalog.Recorded) (standing : Standing s (bucket :: rest))
    (several : 2 ≤ group.length) (part : ∃ n, group = (bucket.insertionSort
      fun a b => a.byteCount ≤ b.byteCount).take n) {outputs : List (List EventRow)}
    (cut : outputs = chunks (rowsForEachOutput settings (bytesOf group) rows) rows)
    (swaps : Swaps node out s s' (group.map Manifest.segmentId)
      ((sourceOf group).toList.flatMap fun source => outputs.map fun chunk => (source, chunk))) :
    Progress settings s s' [⟨group, rows, outputs⟩] ∧ Standing s' rest := by
  obtain ⟨n, rfl⟩ := part
  set group := (bucket.insertionSort fun a b => a.byteCount ≤ b.byteCount).take n
  have mine : ∀ m ∈ group, m ∈ bucket := fun m inside =>
    (perm_insertionSort _ bucket).mem_iff.mp (mem_of_mem_take inside)
  have parts := standing.distinct
  rw [flatten_cons, map_append, List.nodup_append] at parts
  obtain ⟨own, others, apart⟩ := parts
  have distinct : (group.map Manifest.segmentId).Nodup :=
    (((perm_insertionSort _ bucket).map _).nodup_iff.mpr own).sublist ((take_sublist _ _).map _)
  have here : ∀ m ∈ bucket, m.segmentId ∈ s.catalog.manifests.map Manifest.segmentId ∧ m.tier ≠ "" :=
    fun m inside => standing.live m (mem_append_left _ inside)
  have nonempty : group ≠ [] := by
    intro none
    rw [none] at several
    simp at several
  have tiers := fun r (inside : r ∈ (sourceOf group).toList.flatMap fun source =>
    outputs.map fun chunk => (source, chunk)) => tier_replacements (fun m there => (here m (mine m there)).2) inside
  refine ⟨⟨recorded.published swaps.catalog, ?_, ?_⟩, ⟨others, fun m inside => ?_⟩⟩
  · intro c inside
    obtain rfl := mem_singleton.mp inside
    exact ⟨several, cut⟩
  · have counts := swaps.length_add_le recorded (fun id inside => by
      obtain ⟨m, there, rfl⟩ := mem_map.mp inside
      exact (here m (mine m there)).1) distinct
    rw [length_replacements nonempty, length_map] at counts
    simpa using counts
  · obtain ⟨live, tier⟩ := standing.live m (mem_append_right _ inside)
    refine ⟨recorded.id_stays swaps.catalog live ?_ (tier_replacementsOf tiers), tier⟩
    intro retired
    obtain ⟨w, there, same⟩ := mem_map.mp retired
    exact apart _ (mem_map_of_mem (mine w there)) _ (mem_map_of_mem inside) same

theorem Standing.tail {bucket : List Manifest} {rest : List (List Manifest)} (standing : Standing s (bucket :: rest)) :
    Standing s rest := by
  have parts := standing.distinct
  rw [flatten_cons, map_append, List.nodup_append] at parts
  exact ⟨parts.2.1, fun m inside => standing.live m (mem_append_right _ inside)⟩

theorem consolidateAll_progress {groupBy : String} {groups : List (List Manifest)} {c : Consolidated}
    (recorded : c.store.catalog.Recorded) (standing : Standing c.store groups) :
    ∃ made, (consolidateAll node settings groupBy o c groups).1.swaps = c.swaps ++ made ∧
      Progress settings c.store (consolidateAll node settings groupBy o c groups).1.store made := by
  induction groups generalizing c with
  | nil => exact ⟨[], (append_nil _).symm, .refl recorded⟩
  | cons bucket rest ih =>
    unfold consolidateAll
    split
    · exact ih recorded standing.tail
    · exact ⟨[], (append_nil _).symm, .refl recorded⟩
    · rename_i group takenBytes due
      obtain ⟨rfl, several, part⟩ := takes_of_dueOf due
      split
      · exact ⟨[], (append_nil _).symm, .refl recorded⟩
      · rename_i found erased read
        dsimp only
        set rows := found.insertionSort fun a b => sortKey node groupBy a ≤ sortKey node groupBy b
        set outputs := chunks (rowsForEachOutput settings (bytesOf group) rows) rows with cut
        set replacements := (sourceOf group).toList.flatMap fun source => outputs.map fun chunk => (source, chunk)
        have commits := @swapSegments_commits node (o c.swaps.length) c.store (group.map Manifest.segmentId)
          replacements
        generalize swapSegments node (o c.swaps.length) c.store (group.map Manifest.segmentId) replacements = call
          at commits
        obtain ⟨store, result⟩ := call
        rcases commits with swaps | ⟨same, -, e, failed⟩
        · obtain ⟨progress, left⟩ := progress_of_swaps recorded standing several part cut swaps
          have counted : store.catalog.generation ≠ c.store.catalog.generation := by
            have up := Catalog.publish_generation swaps.catalog
            dsimp only at up
            omega
          simp only [if_neg counted]
          cases result with
          | ok _ =>
            obtain ⟨made, listed, more⟩ := @ih { c with
              store, batch := c.batch + bytesOf group, rowsErased := c.rowsErased + erased
              swaps := c.swaps ++ [⟨group, rows, outputs⟩]
              consolidatedSources := c.consolidatedSources + (group.map Manifest.segmentId).length
              consolidatedOutputs := c.consolidatedOutputs + replacements.length } progress.recorded left
            exact ⟨⟨group, rows, outputs⟩ :: made, by rw [listed]; simp, progress.trans more⟩
          | error e => cases e <;> exact ⟨[⟨group, rows, outputs⟩], rfl, progress⟩
        · obtain rfl : result = .error e := failed
          have kept : store.catalog = c.store.catalog := same
          have still : Progress settings c.store store [] :=
            ⟨kept ▸ recorded, by simp, by rw [kept]; exact le_rfl⟩
          simp only [kept, if_true]
          cases e <;> exact ⟨[], (append_nil _).symm, still⟩

theorem mem_coldGroups {cutoff : Int} {manifests : List Manifest} :
    (coldGroups cutoff manifests).flatten.Perm (manifests.filter fun m => m.occurredRange.2 < cutoff) := by
  refine perm_values_foldl_push.trans (List.Perm.of_eq ?_)
  simp [OrderedMap.values]

theorem standing_coldGroups (cutoff : Int) : Standing s (coldGroups cutoff s.catalog.manifests) where
  distinct := ((mem_coldGroups.map _).nodup_iff).mpr
    ((Catalog.nodup_manifests s.catalog).sublist (filter_sublist.map _))
  live m inside := by
    have live := (List.mem_filter.mp (mem_coldGroups.mem_iff.mp inside)).1
    exact ⟨mem_map_of_mem live, (Catalog.mem_manifests live).2.1⟩

theorem consolidateCold_progress {now : Int} (recorded : s.catalog.Recorded) :
    Progress settings s (consolidateCold node settings now o s).1.store
      (consolidateCold node settings now o s).1.swaps := by
  unfold consolidateCold
  split
  · exact .refl recorded
  · split
    · exact .refl recorded
    · rename_i groupBy _
      obtain ⟨made, listed, progress⟩ := @consolidateAll_progress node settings o groupBy _ ⟨s, 0, 0, 0, 0, false, []⟩
        recorded (standing_coldGroups (now - settings.coldGroupAfterMs))
      rw [listed, nil_append]
      exact progress

theorem runPasses_progress {run : List (Int × (ℕ → Outside))} (recorded : s.catalog.Recorded) :
    Progress settings s (runPasses node settings run s).1 (runPasses node settings run s).2 := by
  induction run generalizing s with
  | nil => exact .refl recorded
  | cons pass rest ih =>
    obtain ⟨now, o⟩ := pass
    have first := @consolidateCold_progress node settings s o now recorded
    exact first.trans (ih first.recorded)

/-- A swap of a pass writes fewer segments than it retires exactly where the group fits one segment
fewer; and where every group that passes swap does, they swap no more often than there are segments. -/
theorem passes_shrink_iff {run : List (Int × (ℕ → Outside))} (recorded : s.catalog.Recorded) :
    (∀ c ∈ (runPasses node settings run s).2, c.outputs.length < c.group.length ↔ FitsFewer settings c) ∧
    ((∀ c ∈ (runPasses node settings run s).2, FitsFewer settings c) →
      (runPasses node settings run s).2.length ≤ s.catalog.manifests.length) := by
  have progress := @runPasses_progress node settings s run recorded
  have each : ∀ c ∈ (runPasses node settings run s).2,
      c.outputs.length < c.group.length ↔ FitsFewer settings c := by
    intro c inside
    obtain ⟨several, cut⟩ := progress.cut c inside
    have same := @outputs_lt_iff settings c.group c.rows c.outputs several
    rwa [← cut] at same
  refine ⟨each, fun fits => ?_⟩
  have counts := progress.fewer
  have less : ∀ made : List Consolidation, (∀ c ∈ made, c.outputs.length < c.group.length) →
      made.length + (made.map fun c => c.outputs.length).sum ≤ (made.map fun c => c.group.length).sum := by
    intro made shrinks
    induction made with
    | nil => exact le_rfl
    | cons c rest ih =>
      obtain ⟨here, later⟩ := List.forall_mem_cons.mp shrinks
      have others := ih later
      simp only [List.length_cons, List.map_cons, List.sum_cons]
      omega
  have whole := less _ fun c inside => (each c inside).mpr (fits c inside)
  omega

end
def hundredNode : Node := { plainNode with image := fun m _ => (m.segmentId.bytes, 100) }

def smallSegment (id : Id) : Manifest := { plainManifest id with byteCount := 100 }

def threeSmall : Store where
  memory := ⟨[], []⟩
  catalog := (Catalog.empty.publishWithLocator [smallSegment 1, smallSegment 2, smallSegment 3] .new).getD .empty
  files := ((OrderedMap.insert ∅ 1 ⟨[EventRow.new 11 "event" "opened" 0], none⟩).insert 2
    ⟨[EventRow.new 12 "event" "opened" 0], none⟩).insert 3 ⟨[EventRow.new 13 "event" "opened" 0], none⟩

def towards (target : ℕ) : CompactionSettings := ⟨some "end_user", 0, 0, 1, target, 1000⟩

def drawing (first : ℕ) : ℕ → Outside := fun _ => quiet fun k => Fin.ofNat (2 ^ 128) (first + k)

def shape (c : Consolidation) : ℕ × ℕ := (c.group.length, c.outputs.length)

theorem recorded_threeSmall : threeSmall.catalog.Recorded := by
  unfold Catalog.Recorded
  decide +kernel

theorem passes_shrink_three : (∀ c ∈ (runPasses hundredNode (towards 200) [(10, drawing 20)] threeSmall).2,
      c.outputs.length < c.group.length ↔ FitsFewer (towards 200) c) ∧
    ((∀ c ∈ (runPasses hundredNode (towards 200) [(10, drawing 20)] threeSmall).2, FitsFewer (towards 200) c) →
      (runPasses hundredNode (towards 200) [(10, drawing 20)] threeSmall).2.length ≤
        threeSmall.catalog.manifests.length) :=
  passes_shrink_iff recorded_threeSmall

/-- Two rows of 100 bytes do not fit a segment of 150, which 300 bytes need only two of. Every pass
writes the three segments again. -/
theorem passes_rewrite_three :
    (runPasses hundredNode (towards 150) [(10, drawing 20), (10, drawing 30)] threeSmall).2.map shape =
      [(3, 3), (3, 3)] := by
  decide +kernel
end TallyOwl.Compact
