import TallyOwl.Cluster.Crashes
import Mathlib.Data.List.Induction

/-! Whether a replica that replays agrees with one that never crashed. Its marks and its
erasures stand at the applied position and its store may be ahead of it, for as long as no
crash takes back an erasure or leaves a frame without its receipt. Either of those is kept
for good: an erasure more than the position claims, or a batch stored twice. -/
namespace TallyOwl.Cluster.Crashes
open Lib List
open Segmented (stamp)
open Ledger (commitTombstone)

def commitsOf (commands : List TabletCommand) : List Entry :=
  commands.filterMap fun
    | .commit e => some e
    | _ => none

def erasuresOf (commands : List TabletCommand) : List Tombstone :=
  commands.filterMap fun
    | .tombstone t => if t.namesSomething then some t else none
    | _ => none

/-- The generation compaction may reclaim below, behind some entries. -/
def compactionOf (commands : List TabletCommand) : Nat :=
  commands.foldl (fun mark command => match command with
    | .compactionGeneration generation => max mark generation
    | _ => mark) 0

/-- The generation and the records that some erasures leave, each taken once. -/
def recordsOf (erasures : List Tombstone) : Nat × OrderedMap (ℕ ×ₗ Id) Tombstone :=
  erasures.foldl (fun held t => (held.1 + 1,
    held.2.insert (toLex (held.1 + 1, t.tombstoneId)) { t with generation := held.1 + 1 })) (0, ∅)

def rowsOf (e : Entry) : List EventRow := untimed (stamp e.sourceId e.batchId 0 e.rows)

section
variable {log : List TabletCommand} {a : Nat} {command : TabletCommand}

theorem take_next (here : log[a]? = some command) : log.take (a + 1) = log.take a ++ [command] := by
  rw [take_add_one, here]
  rfl

theorem commitsOf_append (first second : List TabletCommand) :
    commitsOf (first ++ second) = commitsOf first ++ commitsOf second := filterMap_append

theorem erasuresOf_append (first second : List TabletCommand) :
    erasuresOf (first ++ second) = erasuresOf first ++ erasuresOf second := filterMap_append

theorem recordsOf_append (erasures : List Tombstone) (t : Tombstone) :
    recordsOf (erasures ++ [t]) = ((recordsOf erasures).1 + 1,
      (recordsOf erasures).2.insert (toLex ((recordsOf erasures).1 + 1, t.tombstoneId))
        { t with generation := (recordsOf erasures).1 + 1 }) := by
  simp [recordsOf, foldl_append]

theorem recordsOf_fst (erasures : List Tombstone) : (recordsOf erasures).1 = erasures.length := by
  induction erasures using List.reverseRecOn with
  | nil => rfl
  | append_singleton erasures t ih => rw [recordsOf_append, ih]; simp

theorem compactionOf_append (commands : List TabletCommand) (command : TabletCommand) :
    compactionOf (commands ++ [command]) = match command with
      | .compactionGeneration generation => max (compactionOf commands) generation
      | _ => compactionOf commands := by
  simp only [compactionOf, foldl_append, foldl_cons, foldl_nil]

theorem mem_commitsOf {commands : List TabletCommand} {e : Entry} : e ∈ commitsOf commands ↔ .commit e ∈ commands := by
  simp only [commitsOf, mem_filterMap]
  constructor
  · rintro ⟨command, inside, is⟩
    cases command with
    | commit f =>
      cases is
      exact inside
    | _ => cases is
  · intro inside
    exact ⟨.commit e, inside, rfl⟩

theorem untimed_append (first second : List EventRow) :
    untimed (first ++ second) = untimed first ++ untimed second := map_append

theorem untimed_stamp (e : Entry) (now : Int) : untimed (stamp e.sourceId e.batchId now e.rows) = rowsOf e := by
  simp [rowsOf, untimed, stamp]

end

/-- Where a replica stands that took every entry up to one position into its marks and its
erasures, and every commit up to a further one into its store. -/
structure At (log : List TabletCommand) (a ahead : Nat) (r : Replica) : Prop where
  within : a ≤ ahead
  bounded : ahead ≤ log.length
  marks : r.marks = ⟨⟨a, 0⟩, (erasuresOf (log.take a)).length, compactionOf (log.take a)⟩
  generation : r.erasures.catalog.tombstoneGeneration = (recordsOf (erasuresOf (log.take a))).1
  records : r.erasures.catalog.tombstones = (recordsOf (erasuresOf (log.take a))).2
  receipts : r.store.receipts = (commitsOf (log.take ahead)).map Entry.key
  held : untimed r.store.held = (commitsOf (log.take ahead)).flatMap rowsOf

section
variable {log : List TabletCommand} {a ahead : Nat} {r : Replica} {now : Int}

theorem applyEntry_commit (uncopied : r.marks.copiedThrough = 0) (e : Entry) (index : Nat) :
    r.applyEntry (index + 1) now (.commit e) =
      { r with store := r.store.commit e.key (stamp e.sourceId e.batchId now e.rows) }.atIndex (index + 1) := by
  have checked : notAlreadyCopied r.marks.toTabletMarks r.store (index + 1) e.rows = some e.rows := by
    unfold notAlreadyCopied
    rw [if_pos (by rw [uncopied]; omega)]
  simp only [Replica.applyEntry, checked]

theorem received_iff (distinct : ((commitsOf log).map Entry.key).Nodup) {e : Entry}
    (here : log[a]? = some (.commit e)) : e.key ∈ (commitsOf (log.take ahead)).map Entry.key ↔ a < ahead := by
  constructor
  · intro inside
    by_contra behind
    -- the commit would stand in the log before its own place too
    have part : ((commitsOf (log.take (a + 1))).map Entry.key).Nodup :=
      distinct.sublist (((take_sublist _ _).filterMap _).map _)
    rw [take_next here, commitsOf_append, map_append, List.nodup_append] at part
    have sub : (commitsOf (log.take ahead)).Sublist (commitsOf (log.take a)) :=
      (take_sublist_take_left (not_lt.mp behind)).filterMap _
    exact part.2.2 e.key ((sub.map _).subset inside) e.key (mem_singleton_self _) rfl
  · intro past
    refine mem_map.mpr ⟨e, mem_commitsOf.mpr ?_, rfl⟩
    exact mem_of_getElem? (by rw [getElem?_take, if_pos past]; exact here)

theorem commitsOf_other (within : a ≤ ahead) {command : TabletCommand} (here : log[a]? = some command)
    (none : commitsOf [command] = []) : commitsOf (log.take (max ahead (a + 1))) = commitsOf (log.take ahead) := by
  by_cases past : a < ahead
  · rw [max_eq_left past]
  · have level : ahead = a := by omega
    rw [max_eq_right (by omega), take_next here, commitsOf_append, none, append_nil, level]

theorem At.commit_store (distinct : ((commitsOf log).map Entry.key).Nodup) (stands : At log a ahead r)
    {e : Entry} (here : log[a]? = some (.commit e)) (now : Int) :
    (r.store.commit e.key (stamp e.sourceId e.batchId now e.rows)).receipts =
        (commitsOf (log.take (max ahead (a + 1)))).map Entry.key ∧
      untimed (r.store.commit e.key (stamp e.sourceId e.batchId now e.rows)).held =
        (commitsOf (log.take (max ahead (a + 1)))).flatMap rowsOf := by
  have known := @received_iff log a ahead distinct e here
  rw [← stands.receipts] at known
  have within := stands.within
  unfold Tablet.commit
  by_cases past : a < ahead
  · rw [if_pos (known.mpr past), max_eq_left past]
    exact ⟨stands.receipts, stands.held⟩
  · have level : ahead = a := by omega
    rw [if_neg (fun received => past (known.mp received)), max_eq_right (by omega), take_next here,
      commitsOf_append]
    constructor
    · simp [Tablet.receive, Tablet.extend, stands.receipts, level, commitsOf]
    · have grows : ((r.store.extend (stamp e.sourceId e.batchId now e.rows)).receive e.key).held =
          r.store.held ++ stamp e.sourceId e.batchId now e.rows := by
        simp [Tablet.held, Tablet.receive, Tablet.extend]
      rw [grows, untimed_append, untimed_stamp, stands.held, level]
      simp [commitsOf]

theorem At.applyEntry (distinct : ((commitsOf log).map Entry.key).Nodup) (stands : At log a ahead r)
    {command : TabletCommand} (here : log[a]? = some command) :
    At log (a + 1) (max ahead (a + 1)) (r.applyEntry (a + 1) now command) := by
  have inside : a < log.length := (List.getElem?_eq_some_iff.mp here).1
  have bound : max ahead (a + 1) ≤ log.length := max_le stands.bounded inside
  have erased := congrArg erasuresOf (take_next here)
  have compacted := congrArg compactionOf (take_next here)
  rw [erasuresOf_append] at erased
  rw [compactionOf_append] at compacted
  cases command with
  | commit e =>
    have same : erasuresOf (log.take (a + 1)) = erasuresOf (log.take a) := erased.trans (append_nil _)
    have store := stands.commit_store distinct here now
    rw [applyEntry_commit (by rw [stands.marks])]
    refine ⟨le_max_right _ _, bound, ?_, ?_, ?_, store.1, store.2⟩
    · rw [same, compacted]
      simp only [Replica.atIndex, stands.marks]
    · rw [same]
      exact stands.generation
    · rw [same]
      exact stands.records
  | tombstone t =>
    have commits := commitsOf_other stands.within here rfl
    simp only [Replica.applyEntry, Replica.erase]
    by_cases names : t.namesSomething = true
    · have more : erasuresOf (log.take (a + 1)) = erasuresOf (log.take a) ++ [t] := by
        rw [erased]
        simp [erasuresOf, names]
      rw [if_pos names]
      refine ⟨le_max_right _ _, bound, ?_, ?_, ?_, ?_, ?_⟩
      · rw [more, compacted]
        simp [Replica.atIndex, stands.marks, commitTombstone, Ledger.numbered, stands.generation, recordsOf_fst]
      · rw [more, recordsOf_append]
        simp [Replica.atIndex, commitTombstone, Ledger.numbered, stands.generation]
      · rw [more, recordsOf_append]
        simp [Replica.atIndex, commitTombstone, Ledger.numbered, stands.generation, stands.records]
      · rw [commits]
        exact stands.receipts
      · rw [commits]
        exact stands.held
    · have same : erasuresOf (log.take (a + 1)) = erasuresOf (log.take a) := by
        rw [erased]
        simp [erasuresOf, names]
      rw [if_neg names]
      refine ⟨le_max_right _ _, bound, ?_, ?_, ?_, ?_, ?_⟩
      · rw [same, compacted]
        simp only [Replica.atIndex, stands.marks]
      · rw [same]
        exact stands.generation
      · rw [same]
        exact stands.records
      · rw [commits]
        exact stands.receipts
      · rw [commits]
        exact stands.held
  | compactionGeneration generation =>
    have same : erasuresOf (log.take (a + 1)) = erasuresOf (log.take a) := erased.trans (append_nil _)
    have commits := commitsOf_other stands.within here rfl
    have marks : (r.compactBelow generation).marks = ⟨⟨a, 0⟩, (erasuresOf (log.take a)).length,
        max (compactionOf (log.take a)) generation⟩ := by
      unfold Replica.compactBelow
      rw [stands.marks]
      dsimp only
      split
      · rename_i below
        rw [stands.marks, max_eq_left below]
      · rename_i above
        rw [max_eq_right (by omega)]
    have rest : (r.compactBelow generation).erasures = r.erasures ∧
        (r.compactBelow generation).store = r.store := by
      unfold Replica.compactBelow
      split <;> exact ⟨rfl, rfl⟩
    refine ⟨le_max_right _ _, bound, ?_, ?_, ?_, ?_, ?_⟩
    · rw [same, compacted]
      simp only [Replica.applyEntry, Replica.atIndex, marks]
    · rw [same]
      simp only [Replica.applyEntry, Replica.atIndex, rest.1, stands.generation]
    · rw [same]
      simp only [Replica.applyEntry, Replica.atIndex, rest.1, stands.records]
    · rw [commits]
      simp only [Replica.applyEntry, Replica.atIndex, rest.2, stands.receipts]
    · rw [commits]
      simp only [Replica.applyEntry, Replica.atIndex, rest.2, stands.held]

theorem applyEntry_durable (index : Nat) (command : TabletCommand) :
    (r.applyEntry index now command).applied = r.applied ∧ (r.applyEntry index now command).saved = r.saved := by
  cases command with
  | commit e =>
    simp only [Replica.applyEntry]
    split <;> exact ⟨rfl, rfl⟩
  | tombstone t =>
    simp only [Replica.applyEntry, Replica.erase]
    split <;> exact ⟨rfl, rfl⟩
  | compactionGeneration generation =>
    simp only [Replica.applyEntry, Replica.compactBelow]
    split <;> exact ⟨rfl, rfl⟩

theorem applyAll_durable (clock : Nat → Int) (r : Replica) (index : Nat) (commands : List TabletCommand) :
    (r.applyAll clock index commands).applied = r.applied ∧ (r.applyAll clock index commands).saved = r.saved := by
  induction commands generalizing r index with
  | nil => exact ⟨rfl, rfl⟩
  | cons command commands ih =>
    have first := @applyEntry_durable r (clock index) (index + 1) command
    have rest := ih (r.applyEntry (index + 1) (clock index) command) (index + 1)
    exact ⟨rest.1.trans first.1, rest.2.trans first.2⟩

theorem At.applyAll (distinct : ((commitsOf log).map Entry.key).Nodup) (clock : Nat → Int)
    {commands : List TabletCommand} (stands : At log a ahead r) (next : commands <+: log.drop a) :
    At log (a + commands.length) (max ahead (a + commands.length)) (r.applyAll clock a commands) := by
  induction commands generalizing a ahead r with
  | nil => simpa [Replica.applyAll, max_eq_left stands.within] using stands
  | cons command commands ih =>
    obtain ⟨rest, parts⟩ := next
    have here : log[a]? = some command := by
      have first := congrArg List.head? parts
      simpa [head?_drop] using first.symm
    have later : commands <+: log.drop (a + 1) := by
      refine ⟨rest, ?_⟩
      rw [← tail_drop, ← parts]
      rfl
    have stepped := ih (@At.applyEntry log a ahead r (clock a) distinct stands command here) later
    rw [length_cons, show a + (commands.length + 1) = a + 1 + commands.length by omega]
    rw [max_assoc, max_eq_right (by omega : a + 1 ≤ a + 1 + commands.length)] at stepped
    exact stepped

end

section
variable {log : List TabletCommand} {r : Replica}

/-- A crash takes back no erasure, and leaves no frame of a commit behind that is to come
without its receipt. -/
def Harmless (log : List TabletCommand) (r : Replica) : Event → Prop
  | .apply _ _ => True
  | .crash count midway _ =>
      (∀ t, .tombstone t ∈ batchOf log r.applied count → t.namesSomething = false) ∧
      (midway = true → ∀ e, log[r.applied + (batchOf log r.applied count).length]? = some (.commit e) →
        e.rows ≠ [] → e.key ∈ r.store.receipts)

/-- Where the position and the marks beside it stand, with a store that may be ahead. -/
def Stands (log : List TabletCommand) (r : Replica) : Prop :=
  r.saved = r.marks ∧ ∃ ahead, At log r.applied ahead r

theorem batchOf_front (log : List TabletCommand) (applied count : Nat) :
    batchOf log applied count <+: log.drop applied := take_prefix _ _

theorem erasuresOf_batch (log : List TabletCommand) (applied count : Nat) :
    erasuresOf (log.take (applied + (batchOf log applied count).length)) =
      erasuresOf (log.take applied) ++ erasuresOf (batchOf log applied count) := by
  rw [← erasuresOf_append, take_add]
  congr 2
  rw [batchOf, length_take, ← take_take, take_length]

theorem Stands.applyBatch (distinct : ((commitsOf log).map Entry.key).Nodup) (stands : Stands log r)
    (count : Nat) (clock : Nat → Int) : Stands log (r.applyBatch log count clock) := by
  obtain ⟨saved, ahead, level⟩ := stands
  unfold Replica.applyBatch
  dsimp only
  split
  · exact ⟨saved, ahead, level⟩
  · have done := level.applyAll distinct clock (batchOf_front log r.applied count)
    exact ⟨rfl, _, ⟨done.within, done.bounded, done.marks, done.generation, done.records, done.receipts,
      done.held⟩⟩

theorem begin_kept {done : Replica} {index : Nat} {now : Int} {next : TabletCommand}
    (received : ∀ e, next = .commit e → e.rows ≠ [] → e.key ∈ done.store.receipts) :
    (done.begin index now next).store.receipts = done.store.receipts ∧
      (done.begin index now next).store.held = done.store.held ∧
      (done.begin index now next).erasures.catalog = done.erasures.catalog ∧
      (done.begin index now next).saved = done.saved ∧ (done.begin index now next).applied = done.applied := by
  cases next with
  | commit e =>
    simp only [Replica.begin]
    split
    · exact ⟨rfl, rfl, rfl, rfl, rfl⟩
    · rename_i rows checked
      split
      · exact ⟨rfl, rfl, rfl, rfl, rfl⟩
      · rename_i fresh
        have empty : e.rows = [] := by
          by_contra some
          exact fresh (received e rfl some)
        have none : rows = [] := by
          unfold notAlreadyCopied at checked
          split at checked
          · exact (Option.some.inj checked).symm.trans empty
          · simp [empty] at checked
        refine ⟨rfl, ?_, rfl, rfl, rfl⟩
        simp [none, Tablet.held, Tablet.extend, stamp]
  | tombstone t =>
    simp only [Replica.begin]
    split <;> exact ⟨rfl, rfl, rfl, rfl, rfl⟩
  | compactionGeneration generation => exact ⟨rfl, rfl, rfl, rfl, rfl⟩

theorem Stands.crash (distinct : ((commitsOf log).map Entry.key).Nodup) (stands : Stands log r)
    {count : Nat} {midway : Bool} {clock : Nat → Int} (harmless : Harmless log r (.crash count midway clock)) :
    Stands log (r.step log (.crash count midway clock)) := by
  obtain ⟨saved, ahead, level⟩ := stands
  obtain ⟨noErasure, received⟩ := harmless
  have done := level.applyAll distinct clock (batchOf_front log r.applied count)
  have durable := applyAll_durable clock r r.applied (batchOf log r.applied count)
  have none : erasuresOf (batchOf log r.applied count) = [] := by
    refine filterMap_eq_nil_iff.mpr fun command inside => ?_
    cases command with
    | tombstone t => simp [noErasure t inside]
    | _ => rfl
  have erased := erasuresOf_batch log r.applied count
  rw [none, append_nil] at erased
  -- the dead replica has the store and the erasures of the batch, begun or not
  obtain ⟨receipts, held, catalog, marks, applied⟩ :
      (r.dies log count midway clock).store.receipts = (r.applyAll clock r.applied (batchOf log r.applied count)).store.receipts ∧
      (r.dies log count midway clock).store.held = (r.applyAll clock r.applied (batchOf log r.applied count)).store.held ∧
      (r.dies log count midway clock).erasures.catalog = (r.applyAll clock r.applied (batchOf log r.applied count)).erasures.catalog ∧
      (r.dies log count midway clock).saved = r.saved ∧ (r.dies log count midway clock).applied = r.applied := by
    unfold Replica.dies
    dsimp only
    split
    · rename_i next here
      split
      · rename_i begun
        have kept := @begin_kept (r.applyAll clock r.applied (batchOf log r.applied count))
          (r.applied + (batchOf log r.applied count).length + 1)
          (clock (r.applied + (batchOf log r.applied count).length)) next ?_
        · exact ⟨kept.1, kept.2.1, kept.2.2.1, kept.2.2.2.1.trans durable.2, kept.2.2.2.2.trans durable.1⟩
        · rintro e rfl some
          have before := received begun e here some
          rw [level.receipts] at before
          rw [done.receipts]
          exact ((((take_sublist_take_left (le_max_left _ _)).filterMap _).map _).subset before)
      · exact ⟨rfl, rfl, rfl, durable.2, durable.1⟩
    · exact ⟨rfl, rfl, rfl, durable.2, durable.1⟩
  refine ⟨rfl, max ahead (r.applied + (batchOf log r.applied count).length), ?_⟩
  have position : (r.step log (.crash count midway clock)).applied = r.applied := applied
  rw [position]
  exact {
    within := le_trans level.within (le_max_left _ _)
    bounded := done.bounded
    marks := (marks.trans saved).trans level.marks
    generation := by
      rw [← erased, ← done.generation]
      exact congrArg Catalog.tombstoneGeneration catalog
    records := by
      rw [← erased, ← done.records]
      exact congrArg Catalog.tombstones catalog
    receipts := receipts.trans done.receipts
    held := (congrArg untimed held).trans done.held }

theorem stands_start (log : List TabletCommand) : Stands log .start := by
  refine ⟨rfl, 0, ⟨le_refl 0, Nat.zero_le _, ?_, ?_, ?_, ?_, ?_⟩⟩ <;> rfl

theorem filter_flatMap_rowsOf {entries : List Entry} (distinct : (entries.map Entry.key).Nodup) {e : Entry}
    (inside : e ∈ entries) :
    (entries.flatMap rowsOf).filter (fun row => (row.sourceId, row.batchId) = e.key) = rowsOf e := by
  have own : ∀ f : Entry, ∀ row ∈ rowsOf f, (row.sourceId, row.batchId) = f.key := by
    intro f row there
    simp only [rowsOf, untimed, stamp, map_map, mem_map] at there
    obtain ⟨old, -, rfl⟩ := there
    rfl
  induction entries with
  | nil => cases inside
  | cons f entries ih =>
    obtain ⟨apart, rest⟩ := nodup_cons.mp distinct
    rw [flatMap_cons, filter_append]
    by_cases same : e = f
    · obtain rfl := same
      have all : (rowsOf e).filter (fun row => (row.sourceId, row.batchId) = e.key) = rowsOf e :=
        filter_eq_self.mpr fun row there => by simpa using own e row there
      have none : (entries.flatMap rowsOf).filter (fun row => (row.sourceId, row.batchId) = e.key) = [] := by
        refine filter_eq_nil_iff.mpr fun row there => ?_
        obtain ⟨g, among, mine⟩ := mem_flatMap.mp there
        have named := own g row mine
        simp only [decide_eq_true_eq]
        intro is
        exact apart (mem_map.mpr ⟨g, among, named.symm.trans is⟩)
      rw [all, none, append_nil]
    · have among : e ∈ entries := (mem_cons.mp inside).resolve_left same
      have none : (rowsOf f).filter (fun row => (row.sourceId, row.batchId) = e.key) = [] := by
        refine filter_eq_nil_iff.mpr fun row there => ?_
        have named := own f row there
        simp only [decide_eq_true_eq]
        intro is
        exact apart (mem_map.mpr ⟨e, among, is.symm.trans named⟩)
      rw [none, nil_append]
      exact ih rest among

theorem untimed_heldOf (r : Replica) (e : Entry) : untimed (heldOf r e) =
    (untimed r.store.held).filter fun row => (row.sourceId, row.batchId) = e.key := by
  simp only [heldOf, untimed, filter_map]
  rfl

theorem Stands.at_end (stands : Stands log r) (done : r.applied = log.length) : At log log.length log.length r := by
  obtain ⟨-, ahead, level⟩ := stands
  rw [done] at level
  have last : ahead = log.length := le_antisymm level.bounded level.within
  rw [last] at level
  exact level

theorem uncrashed_at (distinct : ((commitsOf log).map Entry.key).Nodup) :
    At log log.length log.length (uncrashed log) := by
  refine ((stands_start log).applyBatch distinct log.length fun _ => 0).at_end ?_
  unfold Replica.applyBatch
  dsimp only
  split
  · rename_i empty
    have short : log = [] := by simpa [batchOf, Replica.start] using empty
    rw [short]
    rfl
  · simp [batchOf, Replica.start]

theorem agrees_of_at (distinct : ((commitsOf log).map Entry.key).Nodup)
    (level : At log log.length log.length r) : Agrees log r := by
  have ideal := uncrashed_at distinct
  refine ⟨level.marks.trans ideal.marks.symm, level.generation.trans ideal.generation.symm,
    level.records.trans ideal.records.symm, fun e inside => ?_⟩
  rw [untimed_heldOf, level.held, take_length]
  exact filter_flatMap_rowsOf distinct (mem_commitsOf.mpr inside)

end

section
variable {log : List TabletCommand} {r : Replica}

theorem receipts_commit (t : Tablet) (key : Id × Id) (rows : List EventRow) :
    t.receipts ⊆ (t.commit key rows).receipts ∧ key ∈ (t.commit key rows).receipts := by
  unfold Tablet.commit
  split
  · rename_i there
    exact ⟨List.Subset.refl _, there⟩
  · exact ⟨subset_append_left _ _, mem_append_right _ (mem_singleton_self _)⟩

theorem store_applyEntry (uncopied : r.marks.copiedThrough = 0) (index : Nat) (now : Int)
    (command : TabletCommand) : (r.applyEntry (index + 1) now command).marks.copiedThrough = 0 ∧
      ((∃ e, command = .commit e ∧ (r.applyEntry (index + 1) now command).store =
          r.store.commit e.key (stamp e.sourceId e.batchId now e.rows)) ∨
        ((∀ e, command ≠ .commit e) ∧ (r.applyEntry (index + 1) now command).store = r.store)) := by
  cases command with
  | commit e =>
    rw [applyEntry_commit uncopied]
    exact ⟨uncopied, .inl ⟨e, rfl, rfl⟩⟩
  | tombstone t =>
    simp only [Replica.applyEntry, Replica.erase]
    split <;> exact ⟨uncopied, .inr ⟨by simp, rfl⟩⟩
  | compactionGeneration generation =>
    simp only [Replica.applyEntry, Replica.compactBelow]
    split <;> exact ⟨uncopied, .inr ⟨by simp, rfl⟩⟩

theorem receipts_applyAll (clock : Nat → Int) (commands : List TabletCommand) (index : Nat)
    (uncopied : r.marks.copiedThrough = 0) : (r.applyAll clock index commands).marks.copiedThrough = 0 ∧
      r.store.receipts ⊆ (r.applyAll clock index commands).store.receipts ∧
      ∀ e ∈ commitsOf commands, e.key ∈ (r.applyAll clock index commands).store.receipts := by
  induction commands generalizing r index with
  | nil => exact ⟨uncopied, List.Subset.refl _, fun e inside => by cases inside⟩
  | cons command commands ih =>
    obtain ⟨still, how⟩ := store_applyEntry uncopied index (clock index) command
    obtain ⟨zero, grows, later⟩ := @ih (r.applyEntry (index + 1) (clock index) command) (index + 1) still
    rcases how with ⟨e, rfl, store⟩ | ⟨other, store⟩
    · have own := receipts_commit r.store e.key (stamp e.sourceId e.batchId (clock index) e.rows)
      rw [← store] at own
      refine ⟨zero, List.Subset.trans own.1 grows, fun f inside => ?_⟩
      rcases mem_cons.mp (mem_commitsOf.mp inside) with same | rest
      · obtain rfl := TabletCommand.commit.inj same
        exact grows own.2
      · exact later f (mem_commitsOf.mpr rest)
    · rw [store] at grows
      refine ⟨zero, grows, fun f inside => later f (mem_commitsOf.mpr ?_)⟩
      exact (mem_cons.mp (mem_commitsOf.mp inside)).resolve_left fun same => other f same.symm

def taken (r : Replica) : Nat := r.erasures.catalog.tombstoneGeneration

theorem taken_applyAll (clock : Nat → Int) (commands : List TabletCommand) (index : Nat) :
    taken (r.applyAll clock index commands) = taken r + (erasuresOf commands).length := by
  induction commands generalizing r index with
  | nil => rfl
  | cons command commands ih =>
    have first : taken (r.applyEntry (index + 1) (clock index) command) =
        taken r + (erasuresOf [command]).length := by
      cases command with
      | commit e =>
        simp only [Replica.applyEntry]
        split <;> rfl
      | tombstone t =>
        simp only [Replica.applyEntry, Replica.erase]
        split
        · rename_i names
          simp [taken, Replica.atIndex, commitTombstone, Ledger.numbered, erasuresOf, names]
        · rename_i names
          simp [taken, Replica.atIndex, erasuresOf, names]
      | compactionGeneration generation =>
        simp only [Replica.applyEntry, Replica.compactBelow]
        split <;> rfl
    rw [Replica.applyAll, ih, first, add_assoc, ← length_append, ← erasuresOf_append]
    rfl

theorem begin_taken (index : Nat) (now : Int) (next : TabletCommand) :
    taken (r.begin index now next) = taken r ∧ (r.begin index now next).applied = r.applied ∧
      (r.begin index now next).saved = r.saved := by
  cases next with
  | commit e =>
    simp only [Replica.begin]
    split
    · exact ⟨rfl, rfl, rfl⟩
    · split <;> exact ⟨rfl, rfl, rfl⟩
  | tombstone t =>
    simp only [Replica.begin]
    split <;> exact ⟨rfl, rfl, rfl⟩
  | compactionGeneration generation => exact ⟨rfl, rfl, rfl⟩

theorem dies_taken (count : Nat) (midway : Bool) (clock : Nat → Int) : taken (r.dies log count midway clock) =
        taken r + (erasuresOf (batchOf log r.applied count)).length ∧
      (r.dies log count midway clock).applied = r.applied ∧ (r.dies log count midway clock).saved = r.saved := by
  have durable := applyAll_durable clock r r.applied (batchOf log r.applied count)
  have count := @taken_applyAll r clock (batchOf log r.applied count) r.applied
  unfold Replica.dies
  dsimp only
  split
  · split
    · obtain ⟨same, applied, saved⟩ := @begin_taken (r.applyAll clock r.applied (batchOf log r.applied _)) _ _ _
      exact ⟨same.trans count, applied.trans durable.1, saved.trans durable.2⟩
    · exact ⟨count, durable.1, durable.2⟩
  · exact ⟨count, durable.1, durable.2⟩

theorem surplus_step {k : Nat} (event : Event) (surplus : (erasuresOf (log.take r.applied)).length + k ≤ taken r) :
    (erasuresOf (log.take (r.step log event).applied)).length + k ≤ taken (r.step log event) := by
  cases event with
  | apply count clock =>
    simp only [Replica.step, Replica.applyBatch]
    split
    · exact surplus
    · have more := @taken_applyAll r clock (batchOf log r.applied count) r.applied
      have prefixes := congrArg List.length (erasuresOf_batch log r.applied count)
      rw [length_append] at prefixes
      dsimp only
      rw [prefixes]
      show _ ≤ taken (r.applyAll clock r.applied (batchOf log r.applied count))
      omega
  | crash count midway clock =>
    obtain ⟨more, applied, -⟩ := @dies_taken log r count midway clock
    show (erasuresOf (log.take (r.dies log count midway clock).applied)).length + k ≤
      taken (r.dies log count midway clock)
    rw [applied]
    omega

theorem surplus_run {k : Nat} (events : List Event) (surplus : (erasuresOf (log.take r.applied)).length + k ≤ taken r) :
    (erasuresOf (log.take (r.run log events).applied)).length + k ≤ taken (r.run log events) := by
  induction events generalizing r with
  | nil => exact surplus
  | cons event events ih => exact ih (surplus_step event surplus)

/-- Every commit up to the position has its receipt, and nothing was copied. -/
structure Received (log : List TabletCommand) (r : Replica) : Prop where
  uncopied : r.marks.copiedThrough = 0
  saved : r.saved.copiedThrough = 0
  commits : ∀ e ∈ commitsOf (log.take r.applied), e.key ∈ r.store.receipts

theorem commitsOf_batch (log : List TabletCommand) (applied count : Nat) :
    commitsOf (log.take (applied + (batchOf log applied count).length)) =
      commitsOf (log.take applied) ++ commitsOf (batchOf log applied count) := by
  rw [← commitsOf_append, take_add]
  congr 2
  rw [batchOf, length_take, ← take_take, take_length]

theorem begin_receipts (index : Nat) (now : Int) (next : TabletCommand) :
    (r.begin index now next).store.receipts = r.store.receipts := by
  cases next with
  | commit e =>
    simp only [Replica.begin]
    split
    · rfl
    · split <;> rfl
  | tombstone t =>
    simp only [Replica.begin]
    split <;> rfl
  | compactionGeneration generation => rfl

theorem dies_receipts (count : Nat) (midway : Bool) (clock : Nat → Int) :
    (r.dies log count midway clock).store.receipts =
      (r.applyAll clock r.applied (batchOf log r.applied count)).store.receipts := by
  unfold Replica.dies
  dsimp only
  split
  · split
    · exact begin_receipts _ _ _
    · rfl
  · rfl

theorem Received.step (received : Received log r) (event : Event) : Received log (r.step log event) := by
  cases event with
  | apply count clock =>
    simp only [Replica.step, Replica.applyBatch]
    split
    · exact received
    · obtain ⟨zero, grows, own⟩ :=
        receipts_applyAll clock (batchOf log r.applied count) r.applied received.uncopied
      refine ⟨zero, zero, ?_⟩
      dsimp only
      rw [commitsOf_batch]
      intro e inside
      rcases mem_append.mp inside with old | new
      · exact grows (received.commits e old)
      · exact own e new
  | crash count midway clock =>
    obtain ⟨-, applied, saved⟩ := @dies_taken log r count midway clock
    obtain ⟨-, grows, -⟩ := receipts_applyAll clock (batchOf log r.applied count) r.applied received.uncopied
    refine ⟨(congrArg (fun m : Marks => m.copiedThrough) saved).trans received.saved,
      (congrArg (fun m : Marks => m.copiedThrough) saved).trans received.saved, ?_⟩
    show ∀ e ∈ commitsOf (log.take (r.dies log count midway clock).applied),
      e.key ∈ (r.dies log count midway clock).store.receipts
    rw [applied, dies_receipts]
    exact fun e inside => grows (received.commits e inside)

def stored (e : Entry) (t : Tablet) : Nat :=
  (t.held.filter fun row => (row.sourceId, row.batchId) = e.key).length

/-- A store holds the rows of a batch twice, or once without the receipt that keeps the
replay from storing them again. -/
def Twice (e : Entry) (t : Tablet) : Prop :=
  (e.key ∉ t.receipts ∧ e.rows.length ≤ stored e t) ∨ 2 * e.rows.length ≤ stored e t

theorem stored_extend (e f : Entry) (t : Tablet) (now : Int) :
    stored e (t.extend (stamp f.sourceId f.batchId now f.rows)) =
      stored e t + if f.key = e.key then f.rows.length else 0 := by
  have held : (t.extend (stamp f.sourceId f.batchId now f.rows)).held =
      t.held ++ stamp f.sourceId f.batchId now f.rows := by
    simp [Tablet.held, Tablet.extend]
  unfold stored
  rw [held, filter_append, length_append]
  congr 1
  split
  · rename_i same
    rw [filter_eq_self.mpr, stamp, length_map]
    intro row inside
    obtain ⟨old, -, rfl⟩ := mem_map.mp inside
    simpa [Entry.key] using same
  · rename_i other
    rw [filter_eq_nil_iff.mpr, length_nil]
    intro row inside
    obtain ⟨old, -, rfl⟩ := mem_map.mp inside
    simpa [Entry.key] using other

theorem Twice.commit {e f : Entry} {t : Tablet} (twice : Twice e t) (only : f.key = e.key → f = e)
    (now : Int) : Twice e (t.commit f.key (stamp f.sourceId f.batchId now f.rows)) := by
  unfold Tablet.commit
  split
  · exact twice
  · have count := stored_extend e f t now
    have same : stored e ((t.extend (stamp f.sourceId f.batchId now f.rows)).receive f.key) =
        stored e (t.extend (stamp f.sourceId f.batchId now f.rows)) := rfl
    unfold Twice at twice ⊢
    rw [same, count]
    by_cases key : f.key = e.key
    · obtain rfl := only key
      rw [if_pos rfl]
      right
      rcases twice with ⟨-, once⟩ | two <;> omega
    · rw [if_neg key]
      rcases twice with ⟨fresh, once⟩ | two
      · left
        refine ⟨fun inside => ?_, by omega⟩
        rcases mem_append.mp inside with old | new
        · exact fresh old
        · exact key (mem_singleton.mp new).symm
      · right
        omega

theorem Twice.applyAll {e : Entry} (clock : Nat → Int) {commands : List TabletCommand} {index : Nat}
    (only : ∀ f ∈ commitsOf commands, f.key = e.key → f = e) (uncopied : r.marks.copiedThrough = 0)
    (twice : Twice e r.store) : Twice e (r.applyAll clock index commands).store := by
  induction commands generalizing r index with
  | nil => exact twice
  | cons command commands ih =>
    obtain ⟨still, how⟩ := store_applyEntry uncopied index (clock index) command
    have rest : ∀ f ∈ commitsOf commands, f.key = e.key → f = e := fun f inside =>
      only f (mem_commitsOf.mpr (mem_cons_of_mem _ (mem_commitsOf.mp inside)))
    refine ih rest still ?_
    rcases how with ⟨f, rfl, store⟩ | ⟨-, store⟩
    · rw [store]
      exact twice.commit (only f (mem_commitsOf.mpr mem_cons_self)) _
    · rw [store]
      exact twice

theorem Twice.begin {e : Entry} (uncopied : r.marks.copiedThrough = 0) (twice : Twice e r.store) (index : Nat)
    (now : Int) (next : TabletCommand) : Twice e (r.begin (index + 1) now next).store := by
  cases next with
  | commit f =>
    have checked : notAlreadyCopied r.marks.toTabletMarks r.store (index + 1) f.rows = some f.rows := by
      unfold notAlreadyCopied
      rw [if_pos (by rw [uncopied]; omega)]
    simp only [Replica.begin, checked]
    split
    · exact twice
    · have count := stored_extend e f r.store now
      show Twice e (r.store.extend (stamp f.sourceId f.batchId now f.rows))
      rcases twice with ⟨fresh, once⟩ | two
      · exact .inl ⟨fresh, by omega⟩
      · exact .inr (by omega)
  | tombstone t =>
    simp only [Replica.begin]
    split <;> exact twice
  | compactionGeneration generation => exact twice

theorem Twice.step {e : Entry} (distinct : ((commitsOf log).map Entry.key).Nodup) (inside : .commit e ∈ log)
    (received : Received log r) (twice : Twice e r.store) (event : Event) : Twice e (r.step log event).store := by
  have only : ∀ count, ∀ f ∈ commitsOf (batchOf log r.applied count), f.key = e.key → f = e := by
    intro count f there same
    refine inj_on_of_nodup_map distinct (mem_commitsOf.mpr ?_) (mem_commitsOf.mpr inside) same
    exact mem_of_mem_drop (mem_of_mem_take (mem_commitsOf.mp there))
  cases event with
  | apply count clock =>
    simp only [Replica.step, Replica.applyBatch]
    split
    · exact twice
    · exact twice.applyAll clock (only count) received.uncopied
  | crash count midway clock =>
    have done := @Twice.applyAll r e clock _ r.applied (only count) received.uncopied twice
    have zero := (receipts_applyAll clock (batchOf log r.applied count) r.applied received.uncopied).1
    have dead : Twice e (r.dies log count midway clock).store := by
      unfold Replica.dies
      dsimp only
      split
      · split
        · exact done.begin zero _ _ _
        · exact done
      · exact done
    exact dead

theorem Twice.run {e : Entry} (distinct : ((commitsOf log).map Entry.key).Nodup) (inside : .commit e ∈ log)
    (received : Received log r) (twice : Twice e r.store) (events : List Event) : Twice e (r.run log events).store := by
  induction events generalizing r with
  | nil => exact twice
  | cons event events ih => exact ih (received.step event) (twice.step distinct inside received event)

theorem mem_receipts_applyAll (clock : Nat → Int) {commands : List TabletCommand} {index : Nat}
    (uncopied : r.marks.copiedThrough = 0) {key : Id × Id}
    (inside : key ∈ (r.applyAll clock index commands).store.receipts) :
    key ∈ r.store.receipts ∨ key ∈ (commitsOf commands).map Entry.key := by
  induction commands generalizing r index with
  | nil => exact .inl inside
  | cons command commands ih =>
    obtain ⟨still, how⟩ := store_applyEntry uncopied index (clock index) command
    have sub : (commitsOf commands).map Entry.key ⊆ (commitsOf (command :: commands)).map Entry.key :=
      (((sublist_cons_self command commands).filterMap _).map _).subset
    rcases ih still inside with old | new
    · rcases how with ⟨f, rfl, store⟩ | ⟨-, store⟩
      · rw [store, Tablet.commit] at old
        split at old
        · exact .inl old
        · rcases mem_append.mp old with before | own
          · exact .inl before
          · right
            obtain rfl := mem_singleton.mp own
            exact mem_map.mpr ⟨f, mem_commitsOf.mpr mem_cons_self, rfl⟩
      · rw [store] at old
        exact .inl old
    · exact .inr (sub new)

theorem twice_of_begun (distinct : ((commitsOf log).map Entry.key).Nodup) (received : Received log r)
    {count : Nat} {clock : Nat → Int} {e : Entry}
    (here : log[r.applied + (batchOf log r.applied count).length]? = some (.commit e))
    (fresh : e.key ∉ r.store.receipts) : Twice e (r.step log (.crash count true clock)).store := by
  have zero := (receipts_applyAll clock (batchOf log r.applied count) r.applied received.uncopied).1
  have still : e.key ∉ (r.applyAll clock r.applied (batchOf log r.applied count)).store.receipts := by
    intro inside
    rcases mem_receipts_applyAll clock received.uncopied inside with old | new
    · exact fresh old
    · have part : ((commitsOf (log.take (r.applied + (batchOf log r.applied count).length + 1))).map
          Entry.key).Nodup := distinct.sublist (((take_sublist _ _).filterMap _).map _)
      rw [take_next here, commitsOf_append, commitsOf_batch, map_append, map_append,
        List.nodup_append] at part
      exact part.2.2 e.key (mem_append_right _ new) e.key (mem_singleton_self _) rfl
  have checked : notAlreadyCopied (r.applyAll clock r.applied (batchOf log r.applied count)).marks.toTabletMarks
      (r.applyAll clock r.applied (batchOf log r.applied count)).store
      (r.applied + (batchOf log r.applied count).length + 1) e.rows = some e.rows := by
    unfold notAlreadyCopied
    rw [if_pos (by rw [zero]; omega)]
  have dead : Twice e (r.dies log count true clock).store := by
    simp only [Replica.dies, here, if_true, Replica.begin, checked, if_neg still]
    have more := stored_extend e e (r.applyAll clock r.applied (batchOf log r.applied count)).store
      (clock (r.applied + (batchOf log r.applied count).length))
    rw [if_pos rfl] at more
    exact .inl ⟨still, by omega⟩
  exact dead

theorem mem_erasuresOf {commands : List TabletCommand} {t : Tombstone} (inside : .tombstone t ∈ commands)
    (names : t.namesSomething = true) : t ∈ erasuresOf commands := by
  refine mem_filterMap.mpr ⟨.tombstone t, inside, ?_⟩
  dsimp only
  rw [if_pos names]

theorem Received.run (received : Received log r) (events : List Event) : Received log (r.run log events) := by
  induction events generalizing r with
  | nil => exact received
  | cons event events ih => exact ih (received.step event)

variable (distinct : ((commitsOf log).map Entry.key).Nodup)
include distinct

theorem disagrees_of_surplus {events : List Event}
    (surplus : (erasuresOf (log.take r.applied)).length + 1 ≤ taken r)
    (done : (r.run log events).applied = log.length) : ¬ Agrees log (r.run log events) := by
  intro agrees
  have beyond := surplus_run events surplus
  rw [done, take_length] at beyond
  have level : taken (r.run log events) = _ := agrees.generation.trans (uncrashed_at distinct).generation
  rw [recordsOf_fst, take_length] at level
  omega

theorem disagrees_of_twice {events : List Event} {e : Entry}
    (inside : .commit e ∈ log) (some : e.rows ≠ []) (received : Received log r) (twice : Twice e r.store)
    (done : (r.run log events).applied = log.length) : ¬ Agrees log (r.run log events) := by
  intro agrees
  have there : e.key ∈ (r.run log events).store.receipts := by
    refine (received.run events).commits e (mem_commitsOf.mpr ?_)
    rw [done, take_length]
    exact inside
  have once : stored e (r.run log events).store = e.rows.length := by
    have lengths := congrArg List.length (agrees.once e inside)
    simpa [untimed, stamp, heldOf, stored] using lengths
  have positive := length_pos_iff.mpr some
  rcases twice.run distinct inside received events with ⟨fresh, -⟩ | two
  · exact fresh there
  · omega

theorem harmless_of_agrees {events : List Event}
    (received : Received log r) (even : (erasuresOf (log.take r.applied)).length ≤ taken r)
    (done : (r.run log events).applied = log.length) (agrees : Agrees log (r.run log events)) :
    Along (Replica.step log) (Harmless log) r events := by
  induction events generalizing r with
  | nil => trivial
  | cons event events ih =>
    have next := received.step event
    refine ⟨?_, ih next (@surplus_step log r 0 event even) done agrees⟩
    cases event with
    | apply count clock => trivial
    | crash count midway clock =>
      constructor
      · intro t inside
        by_contra names
        have erases := length_pos_of_mem (mem_erasuresOf inside (by simpa using names))
        obtain ⟨more, applied, -⟩ := @dies_taken log r count midway clock
        refine @disagrees_of_surplus log (r.step log (.crash count midway clock)) distinct events ?_ done agrees
        show (erasuresOf (log.take (r.dies log count midway clock).applied)).length + 1 ≤
          taken (r.dies log count midway clock)
        rw [applied]
        omega
      · rintro rfl e here some
        by_contra fresh
        have begun := @twice_of_begun log r distinct received count clock e here fresh
        exact disagrees_of_twice distinct (mem_of_getElem? here) some next begun done agrees

omit distinct

/-- A replica that applied the whole log, with any batches and any crashes on the way, agrees
with one that never crashed exactly where no crash takes back an erasure or leaves the frame
of a commit without its receipt. -/
theorem replayed_replica_agrees (log : List TabletCommand) (distinct : ((commitsOf log).map Entry.key).Nodup)
    (events : List Event) (done : (Replica.start.run log events).applied = log.length) :
    Agrees log (Replica.start.run log events) ↔ Along (Replica.step log) (Harmless log) .start events := by
  constructor
  · intro agrees
    have received : Received log .start := ⟨rfl, rfl, fun e inside => by simp [Replica.start, commitsOf] at inside⟩
    exact harmless_of_agrees distinct received (by simp [Replica.start, erasuresOf]) done agrees
  · intro harmless
    have stands : Stands log (Replica.start.run log events) := by
      refine harmless.kept (fun r event stands fine => ?_) (stands_start log)
      cases event with
      | apply count clock => exact stands.applyBatch distinct count clock
      | crash count midway clock => exact stands.crash distinct fine
    exact agrees_of_at distinct (stands.at_end done)

def oneErasure : List TabletCommand := [.tombstone (Ledger.forEvent 1 0 7)]

/-- An erasure that is applied again takes another generation. -/
theorem replayed_erasure_counts_twice : ((commitsOf oneErasure).map Entry.key).Nodup ∧
    (Replica.start.run oneErasure [.crash 1 false fun _ => 0, .apply 1 fun _ => 0]).applied = oneErasure.length ∧
    ¬ Agrees oneErasure (Replica.start.run oneErasure [.crash 1 false fun _ => 0, .apply 1 fun _ => 0]) := by
  refine ⟨by decide, by decide, fun agrees => ?_⟩
  exact absurd agrees.generation (by decide)

def rowThenErasure : List TabletCommand :=
  [.commit ⟨3, 4, [EventRow.new 7 "event" "opened" 0]⟩, .tombstone (Ledger.forEvent 1 0 7)]

theorem replayed_replica_agrees_commit : Agrees rowThenErasure
    (Replica.start.run rowThenErasure [.crash 1 false fun _ => 0, .apply 2 fun _ => 0]) := by
  refine (replayed_replica_agrees rowThenErasure (by decide) _ (by decide)).mpr ⟨⟨?_, ?_⟩, trivial, trivial⟩
  · intro t inside
    exact absurd inside (by simp [batchOf, rowThenErasure, Replica.start])
  · intro midway
    cases midway

end

end TallyOwl.Cluster.Crashes
