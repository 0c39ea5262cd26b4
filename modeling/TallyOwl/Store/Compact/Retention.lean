import TallyOwl.Lib.Buckets
import TallyOwl.Store.Compact.Swap

/-! Removal of what is past its retention (`expire_by_retention`). A segment goes whole by the larger
of the two retentions, and a zero, which keeps everything, is the smaller. -/
namespace TallyOwl.Compact
open Lib Format Locate Segmented LookupEvent List OrderedMap

/-- `group_rows`: the rows by the value they have under the key, the rows without one first. -/
def groupRows (floatText : UInt64 → String) (rows : List EventRow) : Option String → List EventRow
  | none => rows
  | some key => ((rows.foldl (fun grouped row => grouped.push
      (((row.property key).map (·.toDisplay floatText) : Option String) : WithBot String) row)
        ∅ : OrderedMap (WithBot String) (List EventRow))).values.flatten

def isRollup (row : EventRow) : Bool := row.properties.any fun entry => entry.1 = "derived"

/-- `now - newest > age`, in the arithmetic of `i64`. -/
def pastBy (now newest age : Int) : Bool := age < wrapI64 (now - newest)

inductive Fate where
  | stays
  | goes
  | shrinks (removed : Nat) (kept : List EventRow)

structure Expiring where
  retire : List Id
  replacements : List (Manifest × List EventRow)
  segmentsExpired : Nat
  rowsExpired : Nat
  rewritten : Nat

structure Outcome where
  segmentsExpired : Nat
  rowsExpired : Nat
  rewritten : Nat
  abandonedForSpace : Bool
  deriving DecidableEq

def CompactionSettings.longest (settings : CompactionSettings) : Int :=
  max settings.detailedRetentionMs settings.rollupRetentionMs

def fateOf (settings : CompactionSettings) (now : Int) (s : Store) (m : Manifest) : Except StoreError Fate :=
  let detailed := settings.detailedRetentionMs
  let newest := m.occurredRange.2
  if 0 < settings.longest ∧ pastBy now newest settings.longest = true then .ok .goes
  else if 0 < detailed ∧ detailed < settings.rollupRetentionMs ∧ pastBy now newest detailed = true then
    match readSegmentRows s m with
    | .error e => .error e
    | .ok rows =>
        let kept := rows.filter isRollup
        .ok (if kept.length = rows.length then .stays else .shrinks (rows.length - kept.length) kept)
  else .ok .stays

section
variable (node : Node) (settings : CompactionSettings) (now : Int) (s : Store)

def Expiring.apply (plan : Expiring) (m : Manifest) : Fate → Expiring
  | .stays => plan
  | .goes => { plan with
      segmentsExpired := plan.segmentsExpired + 1
      rowsExpired := plan.rowsExpired + m.rowCount
      retire := plan.retire ++ [m.segmentId] }
  | .shrinks removed kept =>
      let plan := { plan with
        rowsExpired := plan.rowsExpired + removed
        retire := plan.retire ++ [m.segmentId] }
      if kept = [] then { plan with segmentsExpired := plan.segmentsExpired + 1 }
      else { plan with
        rewritten := plan.rewritten + 1
        replacements := plan.replacements ++ [(m, groupRows node.floatText kept settings.groupBy)] }

def expireAll (plan : Expiring) : List Manifest → Except StoreError Expiring
  | [] => .ok plan
  | m :: rest =>
      match fateOf settings now s m with
      | .error e => .error e
      | .ok fate => expireAll (plan.apply node settings m fate) rest

def expireByRetention (o : Outside) : Store × Except StoreError Outcome :=
  if settings.detailedRetentionMs ≤ 0 ∧ settings.rollupRetentionMs ≤ 0 then (s, .ok ⟨0, 0, 0, false⟩)
  else
    match expireAll node settings now s ⟨[], [], 0, 0, 0⟩ s.catalog.manifests with
    | .error e => (s, .error e)
    | .ok plan =>
        let outcome : Outcome := ⟨plan.segmentsExpired, plan.rowsExpired, plan.rewritten, false⟩
        if plan.retire = [] then (s, .ok outcome)
        else
          let (s', result) := swapSegments node o s plan.retire plan.replacements
          match result with
          | .ok _ => (s', .ok outcome)
          | .error (.exhausted _) => (s', .ok { outcome with
              segmentsExpired := 0
              rowsExpired := 0
              abandonedForSpace := true })
          | .error e => (s', .error e)

end

/-! What a pass may remove, and what it removes. -/

def retentionOf (settings : CompactionSettings) (row : EventRow) : Int :=
  if isRollup row then settings.rollupRetentionMs else settings.detailedRetentionMs

/-- The row is past the retention of its own class, and the class has one. -/
def Expired (settings : CompactionSettings) (now : Int) (row : EventRow) : Prop :=
  isRollup row = false ∧ 0 < settings.detailedRetentionMs ∧ settings.detailedRetentionMs < now - row.occurredAt ∨
    isRollup row = true ∧ 0 < settings.rollupRetentionMs ∧ settings.rollupRetentionMs < now - row.occurredAt

def Removed (s s' : Store) (row : EventRow) : Prop := (liveRows s').count row < (liveRows s).count row

def Outlived (settings : CompactionSettings) (now : Int) (m : Manifest) : Prop :=
  0 < settings.longest ∧ pastBy now m.occurredRange.2 settings.longest = true

/-- The device or the storage engine does not take a swap that writes no file. -/
def RefusesSwap (o : Outside) (s : Store) : Prop :=
  o.room ≠ none ∨ o.publish ≠ none ∨ 2 ^ 64 ≤ s.catalog.generation + 1

section
variable {node : Node} {settings : CompactionSettings} {now : Int} {s s' : Store} {o : Outside}

theorem expired_iff {row : EventRow} : Expired settings now row ↔
    0 < retentionOf settings row ∧ retentionOf settings row < now - row.occurredAt := by
  unfold Expired retentionOf
  cases isRollup row <;> simp

theorem groupRows_perm (floatText : UInt64 → String) (rows : List EventRow) (key : Option String) :
    (groupRows floatText rows key).Perm rows := by
  cases key with
  | none => exact .refl _
  | some key =>
    refine perm_values_foldl_push.trans (List.Perm.of_eq ?_)
    simp [OrderedMap.values]

theorem lt_of_pastBy {newest age : Int} (clock : 0 ≤ now ∧ now < 2 ^ 63) (range : InI64 newest) (positive : 0 ≤ age)
    (past : pastBy now newest age = true) : age < now - newest := by
  have passed := of_decide_eq_true past
  obtain ⟨low, high⟩ := range
  obtain ⟨early, late⟩ := clock
  unfold wrapI64 Int.bmod at passed
  dsimp only at passed
  split at passed <;> omega

/-- Past the retention of the detailed rows and inside a longer one of the rollups. -/
def Straddles (settings : CompactionSettings) (now : Int) (m : Manifest) : Prop :=
  0 < settings.detailedRetentionMs ∧ settings.detailedRetentionMs < settings.rollupRetentionMs ∧
    pastBy now m.occurredRange.2 settings.detailedRetentionMs = true

instance (m : Manifest) : Decidable (Straddles settings now m) := inferInstanceAs (Decidable (_ ∧ _ ∧ _))

theorem rowsOf_of_read {m : Manifest} {rows : List EventRow} (read : readSegmentRows s m = .ok rows) :
    s.rowsOf m = rows := by
  unfold readSegmentRows at read
  split at read
  · cases read
  · rename_i file opens
    rw [Store.rowsOf, get?_of_opened (by rw [opens]; rfl), Option.map_some, Option.getD_some,
      File.rows_of_readRows read]

theorem fateOf_cases (m : Manifest) : Outlived settings now m ∧ fateOf settings now s m = .ok .goes ∨
    ¬ Outlived settings now m ∧ Straddles settings now m ∧ ((∃ e, fateOf settings now s m = .error e) ∨
      (s.rowsOf m).filter isRollup = s.rowsOf m ∧ fateOf settings now s m = .ok .stays ∨
      ∃ removed, fateOf settings now s m = .ok (.shrinks removed ((s.rowsOf m).filter isRollup))) ∨
    ¬ Outlived settings now m ∧ ¬ Straddles settings now m ∧ fateOf settings now s m = .ok .stays := by
  by_cases past : Outlived settings now m
  · exact .inl ⟨past, if_pos past⟩
  · have kept : fateOf settings now s m = if Straddles settings now m then _ else _ := if_neg past
    by_cases between : Straddles settings now m
    · rw [if_pos between] at kept
      refine .inr (.inl ⟨past, between, ?_⟩)
      cases read : readSegmentRows s m with
      | error e =>
        rw [read] at kept
        exact .inl ⟨e, kept⟩
      | ok rows =>
        rw [read] at kept
        rw [rowsOf_of_read read]
        by_cases all : (rows.filter isRollup).length = rows.length
        · exact .inr (.inl ⟨filter_sublist.eq_of_length all, by rw [kept]; simp only [all, if_true]⟩)
        · exact .inr (.inr ⟨rows.length - (rows.filter isRollup).length, by rw [kept]; simp only [all, if_false]⟩)
    · rw [if_neg between] at kept
      exact .inr (.inr ⟨past, between, kept⟩)

def remains (settings : CompactionSettings) (now : Int) (s : Store) (m : Manifest) : List EventRow :=
  match fateOf settings now s m with
  | .ok .goes => []
  | .ok (.shrinks _ kept) => kept
  | _ => s.rowsOf m

theorem count_remains_le (m : Manifest) (row : EventRow) :
    (remains settings now s m).count row ≤ (s.rowsOf m).count row := by
  unfold remains
  rcases @fateOf_cases settings now s m with
    ⟨-, fate⟩ | ⟨-, -, ⟨e, fate⟩ | ⟨-, fate⟩ | ⟨removed, fate⟩⟩ | ⟨-, -, fate⟩
  · simp [fate]
  · simp [fate]
  · simp [fate]
  · simpa [fate] using filter_sublist.count_le row
  · simp [fate]

/-- A segment loses no row but those past the retention of their class, unless it goes whole with a
row of a class that keeps everything. -/
theorem lost_expired_iff {m : Manifest} (clock : 0 ≤ now ∧ now < 2 ^ 63) (range : InI64 m.occurredRange.2)
    (described : ∀ row ∈ s.rowsOf m, row.occurredAt ≤ m.occurredRange.2) :
    (∀ row, (remains settings now s m).count row < (s.rowsOf m).count row → Expired settings now row) ↔
      (Outlived settings now m → ∀ row ∈ s.rowsOf m, 0 < retentionOf settings row) := by
  unfold remains
  rcases @fateOf_cases settings now s m with
    ⟨past, fate⟩ | ⟨alive, between, ⟨e, fate⟩ | ⟨-, fate⟩ | ⟨removed, fate⟩⟩ | ⟨alive, -, fate⟩
  · -- It goes whole: the newest row is past the larger retention, and so is every other.
    have older := lt_of_pastBy clock range past.1.le past.2
    simp only [fate, count_nil, count_pos_iff, past, true_imp_iff]
    refine forall₂_congr fun row inside => expired_iff.trans (and_iff_left_of_imp fun _ => ?_)
    have newest := described row inside
    have shorter : retentionOf settings row ≤ settings.longest := by
      unfold retentionOf CompactionSettings.longest
      split
      · exact le_max_right _ _
      · exact le_max_left _ _
    omega
  · simp [fate, alive]
  · simp [fate, alive]
  · refine iff_of_true (fun row lost => ?_) fun past => absurd past alive
    simp only [fate] at lost
    have inside : row ∈ s.rowsOf m := count_pos_iff.mp (by omega)
    have detailed : isRollup row = false := by
      by_contra derived
      rw [count_filter (by simpa using derived)] at lost
      exact lt_irrefl _ lost
    have older := lt_of_pastBy clock range between.1.le between.2.2
    have newest := described row inside
    exact .inl ⟨detailed, between.1, by omega⟩
  · simp [fate, alive]

def brought (settings : CompactionSettings) (now : Int) (s : Store) (m : Manifest) : List EventRow :=
  match fateOf settings now s m with
  | .ok (.shrinks _ kept) => kept
  | _ => []

def Leaves (settings : CompactionSettings) (now : Int) (s : Store) (m : Manifest) : Prop :=
  fateOf settings now s m = .ok .goes ∨ ∃ removed kept, fateOf settings now s m = .ok (.shrinks removed kept)

/-- What a pass plans for some of the segments, on top of what it has planned. -/
structure Plans (settings : CompactionSettings) (now : Int) (s : Store) (before plan : Expiring)
    (ms : List Manifest) : Prop where
  retire : ∀ id, id ∈ plan.retire ↔ id ∈ before.retire ∨ ∃ m ∈ ms, Leaves settings now s m ∧ m.segmentId = id
  rows : (plan.replacements.flatMap Prod.snd).Perm
    (before.replacements.flatMap Prod.snd ++ ms.flatMap (brought settings now s))
  sources : ∀ r ∈ plan.replacements, r ∈ before.replacements ∨
    r.1 ∈ ms ∧ ∃ removed kept, fateOf settings now s r.1 = .ok (.shrinks removed kept)
  few : plan.replacements.length ≤ before.replacements.length + ms.length

theorem plans_apply {before : Expiring} {m : Manifest} {fate : Fate} (found : fateOf settings now s m = .ok fate) :
    Plans settings now s before (before.apply node settings m fate) [m] := by
  cases fate with
  | stays => exact ⟨by simp [Expiring.apply, Leaves, found], by simp [Expiring.apply, brought, found],
      fun r inside => .inl inside, Nat.le_add_right _ _⟩
  | goes => exact ⟨by simp [Expiring.apply, Leaves, found, eq_comm], by simp [Expiring.apply, brought, found],
      fun r inside => .inl inside, Nat.le_add_right _ _⟩
  | shrinks removed kept =>
    have leaves : Leaves settings now s m := .inr ⟨removed, kept, found⟩
    unfold Expiring.apply
    by_cases none : kept = []
    · simp only [none, if_true]
      exact ⟨by simp [leaves, eq_comm], by simp [brought, found, none], fun r inside => .inl inside,
        Nat.le_add_right _ _⟩
    · simp only [none, if_false]
      refine ⟨by simp [leaves, eq_comm], ?_, fun r inside => ?_, by simp⟩
      · simp only [flatMap_append, flatMap_singleton, brought, found]
        exact (groupRows_perm _ _ _).append_left _
      · rcases mem_append.mp inside with old | new
        · exact .inl old
        · obtain rfl := mem_singleton.mp new
          exact .inr ⟨mem_singleton.mpr rfl, removed, kept, found⟩

theorem plans_expireAll {before plan : Expiring} {ms : List Manifest}
    (planned : expireAll node settings now s before ms = .ok plan) : Plans settings now s before plan ms := by
  induction ms generalizing before with
  | nil =>
    cases planned
    exact ⟨by simp, by simp, fun r inside => .inl inside, le_rfl⟩
  | cons m rest ih =>
    unfold expireAll at planned
    split at planned
    · cases planned
    · rename_i fate found
      have later := ih planned
      have step := @plans_apply node settings now s before m fate found
      refine ⟨fun id => ?_, ?_, fun r inside => ?_, ?_⟩
      · rw [later.retire, step.retire]
        simp [or_assoc]
      · refine later.rows.trans ((step.rows.append_right _).trans (List.Perm.of_eq ?_))
        simp
      · rcases later.sources r inside with old | ⟨there, shrinks⟩
        · rcases step.sources r old with older | ⟨here, shrinks⟩
          · exact .inl older
          · exact .inr ⟨mem_cons.mpr (.inl (mem_singleton.mp here)), shrinks⟩
        · exact .inr ⟨mem_cons_of_mem _ there, shrinks⟩
      · have more := step.few
        have most := later.few
        simp only [length_cons, length_nil] at more ⊢
        omega

theorem retentionOf_pos (straddles : ∃ m, Straddles settings now m) (row : EventRow) : 0 < retentionOf settings row := by
  obtain ⟨m, between⟩ := straddles
  unfold Straddles at between
  unfold retentionOf
  split <;> omega

theorem straddles_of_error {before : Expiring} {ms : List Manifest} {e : StoreError}
    (stops : expireAll node settings now s before ms = .error e) : ∃ m, Straddles settings now m := by
  induction ms generalizing before with
  | nil => cases stops
  | cons m rest ih =>
    unfold expireAll at stops
    split at stops
    · rename_i failed
      rcases @fateOf_cases settings now s m with ⟨-, fate⟩ | ⟨-, between, -⟩ | ⟨-, -, fate⟩
      · rw [failed] at fate
        cases fate
      · exact ⟨m, between⟩
      · rw [failed] at fate
        cases fate
    · exact ih stops

theorem straddles_of_shrinks {m : Manifest} {removed : Nat} {kept : List EventRow}
    (fate : fateOf settings now s m = .ok (.shrinks removed kept)) : Straddles settings now m := by
  rcases @fateOf_cases settings now s m with ⟨-, same⟩ | ⟨-, between, -⟩ | ⟨-, -, same⟩
  · rw [fate] at same
    cases same
  · exact between
  · rw [fate] at same
    cases same

theorem remains_perm {retire : List Id} {ms : List Manifest}
    (retired : ∀ m ∈ ms, m.segmentId ∈ retire ↔ Leaves settings now s m) :
    ((ms.filter fun m : Manifest => m.segmentId ∉ retire).flatMap s.rowsOf ++
      ms.flatMap (brought settings now s)).Perm (ms.flatMap (remains settings now s)) := by
  induction ms with
  | nil => exact .refl _
  | cons m rest ih =>
    obtain ⟨here, later⟩ := forall_mem_cons.mp retired
    have others := ih later
    by_cases leaves : Leaves settings now s m
    · have same : remains settings now s m = brought settings now s m := by
        unfold remains brought
        rcases leaves with goes | ⟨removed, kept, shrinks⟩
        · simp [goes]
        · simp [shrinks]
      rw [filter_cons_of_neg (by simpa using here.mpr leaves), flatMap_cons, flatMap_cons, same]
      refine perm_append_comm_assoc _ _ _ |>.trans (others.append_left _)
    · have stays : remains settings now s m = s.rowsOf m ∧ brought settings now s m = [] := by
        unfold remains brought
        rcases @fateOf_cases settings now s m with
          ⟨-, fate⟩ | ⟨-, -, ⟨e, fate⟩ | ⟨-, fate⟩ | ⟨removed, fate⟩⟩ | ⟨-, -, fate⟩
        · exact absurd (.inl fate) leaves
        · simp [fate]
        · simp [fate]
        · exact absurd (.inr ⟨_, _, fate⟩) leaves
        · simp [fate]
      rw [filter_cons_of_pos (by simpa using fun there => leaves (here.mp there)), flatMap_cons,
        flatMap_cons, flatMap_cons, stays.1, stays.2, nil_append, append_assoc]
      exact others.append_left _

theorem count_flatMap_le {α : Type*} {xs : List α} {f g : α → List EventRow} {row : EventRow}
    (le : ∀ x ∈ xs, (f x).count row ≤ (g x).count row) : (xs.flatMap f).count row ≤ (xs.flatMap g).count row := by
  induction xs with
  | nil => exact le_rfl
  | cons x rest ih =>
    obtain ⟨here, later⟩ := forall_mem_cons.mp le
    rw [flatMap_cons, flatMap_cons, count_append, count_append]
    exact Nat.add_le_add here (ih later)

theorem count_flatMap_lt_iff {α : Type*} {xs : List α} {f g : α → List EventRow} {row : EventRow}
    (le : ∀ x ∈ xs, (f x).count row ≤ (g x).count row) :
    (xs.flatMap f).count row < (xs.flatMap g).count row ↔ ∃ x ∈ xs, (f x).count row < (g x).count row := by
  induction xs with
  | nil => simp
  | cons x rest ih =>
    obtain ⟨here, later⟩ := forall_mem_cons.mp le
    have whole := count_flatMap_le later
    rw [flatMap_cons, flatMap_cons, count_append, count_append, exists_mem_cons_iff,
      ← ih later]
    omega

/-- A committed pass removes only what has expired exactly where no segment that goes whole has a row
of a class that keeps everything. -/
theorem removed_expired_iff {plan : Expiring} (clock : 0 ≤ now ∧ now < 2 ^ 63)
    (ranges : ∀ m ∈ s.catalog.manifests, InI64 m.occurredRange.2)
    (described : ∀ m ∈ s.catalog.manifests, ∀ row ∈ s.rowsOf m, row.occurredAt ≤ m.occurredRange.2)
    (recorded : s.catalog.Recorded) (fresh : Fresh o s s.catalog.manifests.length)
    (planned : expireAll node settings now s ⟨[], [], 0, 0, 0⟩ s.catalog.manifests = .ok plan)
    (swaps : Swaps node o s s' plan.retire plan.replacements) :
    (∀ row, Removed s s' row → Expired settings now row) ↔ ∀ m ∈ s.catalog.manifests,
      Outlived settings now m → ∀ row ∈ s.rowsOf m, 0 < retentionOf settings row := by
  have plans := plans_expireAll planned
  have retired : ∀ m ∈ s.catalog.manifests, m.segmentId ∈ plan.retire ↔ Leaves settings now s m := by
    intro m live
    rw [plans.retire]
    constructor
    · rintro (none | ⟨n, other, leaves, same⟩)
      · exact absurd none not_mem_nil
      · rwa [← inj_on_of_nodup_map (Catalog.nodup_manifests _) other live same]
    · exact fun leaves => .inr ⟨m, live, leaves, rfl⟩
  have tiers : ∀ r ∈ plan.replacements, r.1.tier ≠ "" := by
    intro r inside
    rcases plans.sources r inside with none | ⟨live, -⟩
    · exact absurd none not_mem_nil
    · exact (Catalog.mem_manifests live).2.1
  have left : (liveRows s').Perm (s.catalog.manifests.flatMap (remains settings now s)) := by
    have kept : (plan.replacements.flatMap Prod.snd).Perm
        (s.catalog.manifests.flatMap (brought settings now s)) := by simpa using plans.rows
    exact (swaps.liveRows recorded (fresh.mono (by simpa using plans.few)) tiers).trans ((kept.append_left _).trans (remains_perm retired))
  have removed : ∀ row, Removed s s' row ↔ ∃ m ∈ s.catalog.manifests,
      (remains settings now s m).count row < (s.rowsOf m).count row := by
    intro row
    rw [Removed, left.count_eq, liveRows, count_flatMap_lt_iff fun m _ => count_remains_le m row]
  have each := fun m (live : m ∈ s.catalog.manifests) =>
    @lost_expired_iff settings now s m clock (ranges m live) (described m live)
  constructor
  · intro all m live
    exact (each m live).mp fun row lost => all row ((removed row).mpr ⟨m, live, lost⟩)
  · intro all row gone
    obtain ⟨m, live, lost⟩ := (removed row).mp gone
    exact (each m live).mpr (all m live) row lost

theorem not_removed_of_same (same : liveRows s' = liveRows s) (row : EventRow) : ¬ Removed s s' row := by
  rw [Removed, same]
  exact lt_irrefl _

theorem refusesSwap_of_same {retire : List Id}
    (same : (swapSegments node o s retire []).1.catalog = s.catalog) : RefusesSwap o s := by
  by_contra accepts
  simp only [RefusesSwap, not_or, not_not, not_le] at accepts
  obtain ⟨room, publish, generation⟩ := accepts
  have taken : ∃ c, s.catalog.swapWithLocator retire [] (locatorFor node.hash node.floatText []) = some c := by
    refine ⟨_, if_pos ⟨generation, fun run inside => ?_⟩⟩
    simp [locatorFor, Locator.sealed, Locator.new, OrderedMap.mapValues, OrderedMap.values] at inside
  obtain ⟨c, published⟩ := taken
  have after : (swapSegments node o s retire []).1.catalog = c := by
    simp [swapSegments, replacementsOf, room, publish, published]
  have counted := Catalog.publish_generation published
  rw [← after, same] at counted
  omega

theorem refusesSwap_not {retire : List Id} {replacements : List (Manifest × List EventRow)}
    (swaps : Swaps node o s s' retire replacements) : ¬ RefusesSwap o s := by
  have guard := swaps.catalog
  simp only [Catalog.swapWithLocator, Catalog.publishInOneTransaction, Option.ite_none_right_eq_some] at guard
  rintro (room | publish | generation)
  · exact room swaps.accepted.1
  · exact publish swaps.accepted.2
  · omega

theorem fateOf_of_outlived {m : Manifest} (past : Outlived settings now m) : fateOf settings now s m = .ok .goes :=
  if_pos past

theorem expireByRetention_store {call : Store × Except StoreError Nat} {outcome refused : Outcome} :
    (match call with
      | (s', result) =>
        match result with
        | .ok _ => ((s', .ok outcome) : Store × Except StoreError Outcome)
        | .error (.exhausted _) => (s', .ok refused)
        | .error e => (s', .error e)).1 = call.1 := by
  obtain ⟨t, result⟩ := call
  cases result with
  | ok _ => rfl
  | error e => cases e <;> rfl

/-- Retention removes only what is past the retention of its own class, exactly where no segment that
is past both retentions holds a row of a class that keeps everything, or where the swap is refused. -/
theorem retention_respects_classes_iff (clock : 0 ≤ now ∧ now < 2 ^ 63)
    (ranges : ∀ m ∈ s.catalog.manifests, InI64 m.occurredRange.2)
    (described : ∀ m ∈ s.catalog.manifests, ∀ row ∈ s.rowsOf m, row.occurredAt ≤ m.occurredRange.2)
    (recorded : s.catalog.Recorded) (fresh : Fresh o s s.catalog.manifests.length) :
    (∀ row, Removed s (expireByRetention node settings now s o).1 row → Expired settings now row) ↔
      (∀ m ∈ s.catalog.manifests, Outlived settings now m → ∀ row ∈ s.rowsOf m, 0 < retentionOf settings row) ∨
      RefusesSwap o s := by
  have still : ∀ t : Store, liveRows t = liveRows s → ∀ row, Removed s t row → Expired settings now row :=
    fun t same row gone => absurd gone (not_removed_of_same same row)
  unfold expireByRetention
  by_cases off : settings.detailedRetentionMs ≤ 0 ∧ settings.rollupRetentionMs ≤ 0
  · rw [if_pos off]
    refine iff_of_true (still s rfl) (.inl fun m live past => ?_)
    have positive := past.1
    unfold CompactionSettings.longest at positive
    omega
  · rw [if_neg off]
    cases planned : expireAll node settings now s ⟨[], [], 0, 0, 0⟩ s.catalog.manifests with
    | error e =>
      exact iff_of_true (still s rfl)
        (.inl fun m live past row inside => retentionOf_pos (straddles_of_error planned) row)
    | ok plan =>
      have plans := plans_expireAll planned
      simp only
      by_cases none : plan.retire = []
      · rw [if_pos none]
        refine iff_of_true (still s rfl) (.inl fun m live past row inside => ?_)
        have goes : m.segmentId ∈ plan.retire :=
          (plans.retire _).mpr (.inr ⟨m, live, .inl (fateOf_of_outlived past), rfl⟩)
        rw [none] at goes
        cases goes
      · rw [if_neg none, expireByRetention_store]
        rcases @swapSegments_cases node o s plan.retire plan.replacements
            (fresh.mono (by simpa using plans.few)) with swaps | ⟨catalog, same⟩
        · rw [removed_expired_iff clock ranges described recorded fresh planned swaps,
            or_iff_left (refusesSwap_not swaps)]
        · refine iff_of_true (still _ same) ?_
          cases rewrites : plan.replacements with
          | nil =>
            rw [rewrites] at catalog
            exact .inr (refusesSwap_of_same catalog)
          | cons r rest =>
            rcases plans.sources r (rewrites ▸ List.mem_cons_self) with gone | ⟨-, removed, kept, shrinks⟩
            · exact absurd gone List.not_mem_nil
            · exact .inl fun m live past row inside =>
                retentionOf_pos ⟨r.1, straddles_of_shrinks shrinks⟩ row

end

def keeping (detailed rollup : Int) : CompactionSettings := ⟨none, detailed, rollup, 0, 1, 1⟩

def rolledUp : EventRow :=
  { EventRow.new 7 "metric-point" "requests" 0 with properties := [("derived", .text "tallyowl-rollup", "collector")] }

def holdingOne (row : EventRow) : Store where
  memory := ⟨[], []⟩
  catalog := (Catalog.empty.publishWithLocator [plainManifest 5] .new).getD .empty
  files := OrderedMap.insert ∅ 5 ⟨[row], none⟩

theorem manifests_holdingOne (row : EventRow) :
    (holdingOne row).catalog.manifests = [{ plainManifest 5 with generation := 1 }] := by
  change ((Catalog.empty.publishWithLocator [plainManifest 5] .new).getD .empty).manifests = _
  decide +kernel

/-- Both retentions are positive, and the row goes past its own. -/
theorem retention_respects_classes_in_one : (∀ row, Removed (holdingOne rolledUp)
        (expireByRetention plainNode (keeping 1000 2000) 5000 (holdingOne rolledUp) (quiet fun _ => 6)).1 row →
          Expired (keeping 1000 2000) 5000 row) ↔
      (∀ m ∈ (holdingOne rolledUp).catalog.manifests, Outlived (keeping 1000 2000) 5000 m →
        ∀ row ∈ (holdingOne rolledUp).rowsOf m, 0 < retentionOf (keeping 1000 2000) row) ∨
      RefusesSwap (quiet fun _ => 6) (holdingOne rolledUp) := by
  have live := manifests_holdingOne rolledUp
  refine retention_respects_classes_iff (by decide) ?_ ?_ ?_ ⟨?_, ?_⟩
  · rw [live]
    decide
  · rw [live]
    decide +kernel
  · unfold Catalog.Recorded
    decide +kernel
  · rw [live]
    decide
  · rw [live]
    decide

/-- A rollup retention of zero keeps every rollup, and the larger retention takes this one. -/
theorem rollup_goes_under_zero : Removed (holdingOne rolledUp)
      (expireByRetention plainNode (keeping 1000 0) 5000 (holdingOne rolledUp) (quiet fun _ => 6)).1 rolledUp ∧
    isRollup rolledUp = true ∧ ¬ Expired (keeping 1000 0) 5000 rolledUp := by
  unfold Removed Expired
  decide +kernel
end TallyOwl.Compact
