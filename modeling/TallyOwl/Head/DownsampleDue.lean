import TallyOwl.Head.Rollup

/-! The downsample pass over one project (`rollup.rs`, `downsample_due`), one step for each call
it makes. A scan, a commit or a mark may fail, a commit or a mark that fails may have landed, a
run may stop between two steps, and receipts expire. -/
namespace TallyOwl.Due
open Lib List
open Locate (asU64)
open Rollup (Row downsample)

structure DownsampleSettings where
  resolutionMs : Int
  detailedMs : Int
  latenessGraceMs : Int

def maxWindowsEachRun : Nat := 48

structure Scanned where
  rows : List Row
  incomplete : Bool

inductive Stage where
  | scan
  | commit (rows : List Row)
  | mark

structure Run where
  newestEnd : Int
  through : Int
  rolled : Nat
  stage : Stage

structure Batch where
  batchId : Id
  rows : List Row

structure State where
  rolledUpThrough : Option Int
  stored : List Batch
  receipts : List Id
  run : Option Run
  now : Int
  attempted : List Int
  reads : List (Int × List Row)

def State.start (now : Int) : State := ⟨none, [], [], none, now, [], []⟩

/-- How a call that writes ends. One that failed may have landed. -/
inductive Answer where
  | done
  | failed (landed : Bool)

inductive Event where
  /-- A run begins. It does nothing where the project or its mark cannot be read. -/
  | begin (now : Int) (readable : Bool)
  | scan (answer : Option Scanned)
  | commit (answer : Answer)
  | mark (answer : Answer)
  | crash
  | expire (gone : List Id)

section
variable (settings : DownsampleSettings) (format : ℚ → String) (digest : Bytes → Id) (projectId : Id)

/-- The newest moment a window may end at and still be rolled up now. -/
def newestEnd (now : Int) : Int :=
  let closedBefore := now - max settings.latenessGraceMs 0
  closedBefore - closedBefore % settings.resolutionMs

def oldestStart (now : Int) : Int :=
  let oldest := now - settings.detailedMs
  oldest - oldest % settings.resolutionMs + settings.resolutionMs

def firstWindow (mark : Option Int) (now : Int) : Int :=
  let through := mark.getD (newestEnd settings now - settings.resolutionMs)
  if settings.detailedMs > 0 then max through (oldestStart settings now) else through

/-- The loop goes on while its next window is closed and the run has room. -/
def Run.enter (run : Run) : Option Run :=
  if run.through + settings.resolutionMs ≤ run.newestEnd ∧ run.rolled < maxWindowsEachRun then
    some { run with stage := .scan }
  else none

def beginRun (mark : Option Int) (now : Int) : Option Run :=
  if settings.resolutionMs ≤ 0 then none
  else Run.enter settings ⟨newestEnd settings now, firstWindow settings mark now, 0, .scan⟩

def downsampleBatchId (windowEnd : Int) : Id :=
  digest (textBytes "downsample" ++ projectId.bytes ++ leBytes 8 (asU64 windowEnd))

/-- The batch identifier of the window that starts at some moment. -/
def windowId (window : Int) : Id := downsampleBatchId digest projectId (window + settings.resolutionMs)

def rollup (rows : List Row) : List Row := (downsample format digest rows settings.resolutionMs projectId).rows

/-- The store takes a batch once for as long as it keeps the receipt. -/
def State.take (s : State) (batch : Batch) : State :=
  if batch.batchId ∈ s.receipts then s
  else { s with stored := batch :: s.stored, receipts := batch.batchId :: s.receipts }

def readWindow (s : State) (run : Run) (answer : Option Scanned) : State :=
  let s := { s with attempted := run.through :: s.attempted }
  match answer with
  | none => { s with run := none }
  | some scanned =>
      if scanned.incomplete then { s with run := none }
      else
        let out := rollup settings format digest projectId scanned.rows
        { s with
          reads := (run.through, scanned.rows) :: s.reads
          run := some { run with stage := if out.isEmpty then .mark else .commit out } }

def commitWindow (s : State) (run : Run) (rows : List Row) : Answer → State
  | .done =>
      { s.take ⟨windowId settings digest projectId run.through, rows⟩ with run := some { run with stage := .mark } }
  | .failed landed =>
      let s := if landed then s.take ⟨windowId settings digest projectId run.through, rows⟩ else s
      { s with run := none }

def markWindow (s : State) (run : Run) : Answer → State
  | .done =>
      let windowEnd := run.through + settings.resolutionMs
      { s with
        rolledUpThrough := some windowEnd
        run := Run.enter settings { run with through := windowEnd, rolled := run.rolled + 1 } }
  | .failed landed =>
      let mark := if landed then some (run.through + settings.resolutionMs) else s.rolledUpThrough
      { s with rolledUpThrough := mark, run := none }

def step (s : State) : Event → Option State
  | .begin now readable =>
      if s.run.isNone ∧ s.now ≤ now then
        some { s with now := now, run := if readable then beginRun settings s.rolledUpThrough now else none }
      else none
  | .scan answer =>
      match s.run with
      | some run =>
          match run.stage with
          | .scan => some (readWindow settings format digest projectId s run answer)
          | _ => none
      | none => none
  | .commit answer =>
      match s.run with
      | some run =>
          match run.stage with
          | .commit rows => some (commitWindow settings digest projectId s run rows answer)
          | _ => none
      | none => none
  | .mark answer =>
      match s.run with
      | some run =>
          match run.stage with
          | .mark => some (markWindow settings s run answer)
          | _ => none
      | none => none
  | .crash => some { s with run := none }
  | .expire gone => some { s with receipts := s.receipts.filter (· ∉ gone) }

def Newer (now window : Int) : Prop := settings.detailedMs ≤ 0 ∨ now - settings.detailedMs < window

/-- The rollup of a window is stored exactly once: it is what one whole read of it rolls up to. -/
def StoredOnce (s : State) (window : Int) : Prop :=
  ∃ batch rows, (s.stored.filter fun b => b.batchId = windowId settings digest projectId window) = [batch] ∧
    (window, rows) ∈ s.reads ∧ batch.rows = rollup settings format digest projectId rows

def NothingToRoll (s : State) (window : Int) : Prop :=
  ∃ rows, s.reads.find? (fun read => read.1 = window) = some (window, rows) ∧
    rollup settings format digest projectId rows = []

def Settled (s : State) (window : Int) : Prop :=
  StoredOnce settings format digest projectId s window ∨ NothingToRoll settings format digest projectId s window

/-- No window that a run attempted and that is still newer than the detailed retention is behind
the mark without its rollup, and no rollup is stored twice. -/
structure RolledUpOnce (s : State) : Prop where
  settled : ∀ mark, s.rolledUpThrough = some mark → ∀ window ∈ s.attempted, window < mark →
    Newer settings s.now window → Settled settings format digest projectId s window
  once : (s.stored.map Batch.batchId).Nodup

/-- A run that finds no mark starts no later than any window an earlier run left unsettled, and a
rollup that is stored is committed again only under a receipt that is still held. -/
def KeepsItsPlace (s : State) : Event → Prop
  | .begin now readable => readable → s.rolledUpThrough = none →
      ∀ run, beginRun settings none now = some run → ∀ window ∈ s.attempted, Newer settings now window →
        ¬ Settled settings format digest projectId s window → run.through ≤ window
  | .commit _ => ∀ run, s.run = some run →
      windowId settings digest projectId run.through ∈ s.stored.map Batch.batchId →
        windowId settings digest projectId run.through ∈ s.receipts
  | _ => True

def IdsApart (s : State) : Prop :=
  ∀ v ∈ s.attempted, ∀ w ∈ s.attempted,
    windowId settings digest projectId v = windowId settings digest projectId w → v = w

/-- A run stands at or after the mark, and every earlier window that was attempted is settled. -/
structure InPlace (s : State) (run : Run) : Prop where
  positive : 0 < settings.resolutionMs
  aligned : settings.resolutionMs ∣ run.through
  ahead : ∀ mark, s.rolledUpThrough = some mark → mark ≤ run.through
  behind : ∀ window ∈ s.attempted, window < run.through → Newer settings s.now window →
    Settled settings format digest projectId s window

def AtStage (s : State) (run : Run) : Prop :=
  match run.stage with
  | .scan => True
  | .commit out => run.through ∈ s.attempted ∧
      ∃ rows, (run.through, rows) ∈ s.reads ∧ out = rollup settings format digest projectId rows
  | .mark => run.through ∈ s.attempted ∧ Settled settings format digest projectId s run.through

structure Kept (s : State) : Prop extends RolledUpOnce settings format digest projectId s where
  aligned : ∀ window ∈ s.attempted, settings.resolutionMs ∣ window
  marked : ∀ mark, s.rolledUpThrough = some mark → settings.resolutionMs ∣ mark
  receipted : ∀ id ∈ s.receipts, id ∈ s.stored.map Batch.batchId
  sourced : ∀ batch ∈ s.stored, ∃ window ∈ s.attempted, ∃ rows, (window, rows) ∈ s.reads ∧
    batch.batchId = windowId settings digest projectId window ∧
      batch.rows = rollup settings format digest projectId rows
  placed : ∀ run, s.run = some run → InPlace settings format digest projectId s run ∧
    AtStage settings format digest projectId s run

end

section
variable {settings : DownsampleSettings} {format : ℚ → String} {digest : Bytes → Id} {projectId : Id}
variable {s t : State} {run : Run} {window : Int}

theorem newer_of_le {earlier later : Int} (order : earlier ≤ later) (newer : Newer settings later window) :
    Newer settings earlier window := by
  rcases newer with keeps | newer
  · exact .inl keeps
  · exact .inr (by omega)

theorem le_of_lt_add_width {width a b : Int} (near : a < b + width) (first : width ∣ a) (second : width ∣ b) :
    a ≤ b := by
  by_contra past
  have gap := Int.le_of_dvd (by omega) (Int.dvd_sub first second)
  omega

theorem not_newer_of_lt {now : Int} (positive : 0 < settings.resolutionMs) (retains : settings.detailedMs > 0)
    (aligned : settings.resolutionMs ∣ window) (before : window < oldestStart settings now) :
    ¬ Newer settings now window := by
  have floor : settings.resolutionMs ∣
      (now - settings.detailedMs) - (now - settings.detailedMs) % settings.resolutionMs :=
    Int.dvd_self_sub_emod
  have least := Int.emod_nonneg (now - settings.detailedMs) positive.ne'
  have reached : window ≤ (now - settings.detailedMs) - (now - settings.detailedMs) % settings.resolutionMs :=
    le_of_lt_add_width before aligned floor
  rintro (keeps | newer)
  · omega
  · omega

theorem firstWindow_aligned {mark : Option Int} {now : Int} (marked : ∀ m, mark = some m → settings.resolutionMs ∣ m) :
    settings.resolutionMs ∣ firstWindow settings mark now := by
  have newest : settings.resolutionMs ∣ newestEnd settings now := Int.dvd_self_sub_emod
  have through : settings.resolutionMs ∣ mark.getD (newestEnd settings now - settings.resolutionMs) := by
    cases mark with
    | none => exact Int.dvd_sub newest (Int.dvd_refl _)
    | some m => exact marked m rfl
  simp only [firstWindow]
  split
  · rcases max_choice (mark.getD (newestEnd settings now - settings.resolutionMs)) (oldestStart settings now)
      with first | second
    · rw [first]
      exact through
    · rw [second]
      exact Int.dvd_add Int.dvd_self_sub_emod (Int.dvd_refl _)
  · exact through

theorem mark_le_firstWindow (mark now : Int) : mark ≤ firstWindow settings (some mark) now := by
  unfold firstWindow
  split
  · exact le_max_left ..
  · exact le_refl mark

theorem not_newer_of_lt_firstWindow {mark now : Int} (positive : 0 < settings.resolutionMs)
    (aligned : settings.resolutionMs ∣ window) (after : mark ≤ window)
    (before : window < firstWindow settings (some mark) now) : ¬ Newer settings now window := by
  unfold firstWindow at before
  split at before
  · rename_i retains
    rcases lt_max_iff.mp before with marked | expired
    · exact absurd marked (by simpa using after)
    · exact not_newer_of_lt positive retains aligned expired
  · exact absurd before (by simpa using after)

theorem enter_eq {next : Run} (entered : Run.enter settings run = some next) : next = { run with stage := .scan } := by
  unfold Run.enter at entered
  split at entered
  · exact (Option.some.inj entered).symm
  · cases entered

theorem beginRun_eq {mark : Option Int} {now : Int} (began : beginRun settings mark now = some run) :
    0 < settings.resolutionMs ∧ run.through = firstWindow settings mark now ∧ run.stage = .scan := by
  unfold beginRun at began
  split at began
  · cases began
  · rename_i positive
    rw [enter_eq began]
    exact ⟨by omega, rfl, rfl⟩

end

/-! What a step does to the windows that are settled. -/

section
variable {settings : DownsampleSettings} {format : ℚ → String} {digest : Bytes → Id} {projectId : Id}
variable {s t : State} {run : Run} {window : Int} {batch : Batch}

theorem Settled.read {other : Int} {rows : List Row} (settled : Settled settings format digest projectId s window)
    (stored : t.stored = s.stored) (reads : t.reads = (other, rows) :: s.reads) (apart : window ≠ other) :
    Settled settings format digest projectId t window := by
  rcases settled with ⟨batch, read, single, there, made⟩ | ⟨read, last, empty⟩
  · refine .inl ⟨batch, read, ?_, ?_, made⟩
    · rw [stored]
      exact single
    · rw [reads]
      exact mem_cons_of_mem _ there
  · refine .inr ⟨read, ?_, empty⟩
    rw [reads, find?_cons_of_neg (by simpa using apart.symm)]
    exact last

theorem take_eq_of_mem (held : batch.batchId ∈ s.receipts) : s.take batch = s := if_pos held

theorem take_eq_of_notMem (fresh : batch.batchId ∉ s.receipts) :
    s.take batch = { s with stored := batch :: s.stored, receipts := batch.batchId :: s.receipts } := if_neg fresh

@[simp] theorem take_attempted : (s.take batch).attempted = s.attempted := by
  unfold State.take
  split <;> rfl

@[simp] theorem take_reads : (s.take batch).reads = s.reads := by
  unfold State.take
  split <;> rfl

@[simp] theorem take_mark : (s.take batch).rolledUpThrough = s.rolledUpThrough := by
  unfold State.take
  split <;> rfl

@[simp] theorem take_now : (s.take batch).now = s.now := by
  unfold State.take
  split <;> rfl

theorem Settled.take (settled : Settled settings format digest projectId s window)
    (apart : batch.batchId ≠ windowId settings digest projectId window) :
    Settled settings format digest projectId (s.take batch) window := by
  by_cases held : batch.batchId ∈ s.receipts
  · rw [take_eq_of_mem held]
    exact settled
  · rw [take_eq_of_notMem held]
    rcases settled with ⟨stored, read, single, there, made⟩ | nothing
    · refine .inl ⟨stored, read, ?_, there, made⟩
      rw [filter_cons_of_neg (by simpa using apart)]
      exact single
    · exact .inr nothing

theorem filter_eq_single {stored : List Batch} (once : (stored.map Batch.batchId).Nodup) (there : batch ∈ stored) :
    (stored.filter fun b => b.batchId = batch.batchId) = [batch] := by
  induction stored with
  | nil => cases there
  | cons first rest ih =>
    obtain ⟨fresh, later⟩ := nodup_cons.mp once
    rcases mem_cons.mp there with rfl | inside
    · have others : (rest.filter fun b => b.batchId = batch.batchId) = [] :=
        filter_eq_nil_iff.mpr fun b found same =>
          fresh (of_decide_eq_true same ▸ mem_map_of_mem found)
      rw [filter_cons_of_pos (by simp), others]
    · have other : first.batchId ≠ batch.batchId := fun same =>
        fresh (same ▸ mem_map_of_mem inside)
      rw [filter_cons_of_neg (by simpa using other)]
      exact ih later inside

end

/-! The steps. -/

section
variable {settings : DownsampleSettings} {format : ℚ → String} {digest : Bytes → Id} {projectId : Id}
variable {s t : State} {run : Run} {e : Event}

variable (kept : Kept settings format digest projectId s)
include kept

theorem Kept.stop :
    Kept settings format digest projectId { s with run := none } :=
  ⟨⟨kept.settled, kept.once⟩, kept.aligned, kept.marked, kept.receipted, kept.sourced, fun _ none => by cases none⟩

theorem Kept.expire (gone : List Id) :
    Kept settings format digest projectId { s with receipts := s.receipts.filter (· ∉ gone) } := by
  refine ⟨⟨kept.settled, kept.once⟩, kept.aligned, kept.marked, ?_, kept.sourced, ?_⟩
  · intro id held
    exact kept.receipted id (List.mem_filter.mp held).1
  · intro run there
    obtain ⟨⟨positive, aligned, ahead, behind⟩, stage⟩ := kept.placed run there
    exact ⟨⟨positive, aligned, ahead, behind⟩, stage⟩

theorem Kept.behind_of_begin {now : Int} (order : s.now ≤ now)
    (began : beginRun settings s.rolledUpThrough now = some run)
    (place : s.rolledUpThrough = none → ∀ run, beginRun settings none now = some run → ∀ window ∈ s.attempted,
      Newer settings now window → ¬ Settled settings format digest projectId s window → run.through ≤ window) :
    ∀ window ∈ s.attempted, window < run.through → Newer settings now window →
      Settled settings format digest projectId s window := by
  intro window inside before newer
  obtain ⟨positive, through, -⟩ := beginRun_eq began
  cases marked : s.rolledUpThrough with
  | none =>
    by_contra unsettled
    rw [marked] at began
    have after := place marked run began window inside newer unsettled
    omega
  | some mark =>
    by_cases passed : window < mark
    · exact kept.settled mark marked window inside passed (newer_of_le order newer)
    · rw [through, marked] at before
      exact absurd newer
        (not_newer_of_lt_firstWindow positive (kept.aligned window inside) (by omega) before)

theorem Kept.begin {now : Int} {readable : Bool}
    (order : s.now ≤ now) (place : KeepsItsPlace settings format digest projectId s (.begin now readable)) :
    Kept settings format digest projectId
      { s with now := now, run := if readable then beginRun settings s.rolledUpThrough now else none } := by
  refine ⟨⟨?_, kept.once⟩, kept.aligned, kept.marked, kept.receipted, kept.sourced, ?_⟩
  · intro mark marked window inside passed newer
    exact kept.settled mark marked window inside passed (newer_of_le order newer)
  · intro run there
    cases readable with
    | false => cases there
    | true =>
      have began : beginRun settings s.rolledUpThrough now = some run := there
      obtain ⟨positive, through, stage⟩ := beginRun_eq began
      refine ⟨⟨positive, ?_, ?_, kept.behind_of_begin order began (place rfl)⟩, ?_⟩
      · rw [through]
        exact firstWindow_aligned kept.marked
      · intro mark marked
        have marked : s.rolledUpThrough = some mark := marked
        rw [through, marked]
        exact mark_le_firstWindow mark now
      · simp only [AtStage, stage]

theorem Kept.attempt
    (place : InPlace settings format digest projectId s run) :
    Kept settings format digest projectId { s with attempted := run.through :: s.attempted, run := none } := by
  refine ⟨⟨?_, kept.once⟩, ?_, kept.marked, kept.receipted, ?_, fun _ none => by cases none⟩
  · intro mark marked window inside passed newer
    rcases mem_cons.mp inside with rfl | inside
    · have ahead := place.ahead mark marked
      omega
    · exact kept.settled mark marked window inside passed newer
  · intro window inside
    rcases mem_cons.mp inside with rfl | inside
    · exact place.aligned
    · exact kept.aligned window inside
  · intro batch stored
    obtain ⟨window, inside, source⟩ := kept.sourced batch stored
    exact ⟨window, mem_cons_of_mem _ inside, source⟩

theorem Kept.readWhole
    (place : InPlace settings format digest projectId s run) (rows : List Row) {stage : Stage}
    (reached : stage = if (rollup settings format digest projectId rows).isEmpty then .mark
      else .commit (rollup settings format digest projectId rows)) :
    Kept settings format digest projectId
      { s with
        attempted := run.through :: s.attempted
        reads := (run.through, rows) :: s.reads
        run := some { run with stage := stage } } := by
  have stopped := kept.attempt place
  have earlier : ∀ window ∈ run.through :: s.attempted, window < run.through → Newer settings s.now window →
      Settled settings format digest projectId
        { s with
          attempted := run.through :: s.attempted
          reads := (run.through, rows) :: s.reads
          run := some { run with stage := stage } } window := by
    intro window inside before newer
    have inside := (mem_cons.mp inside).resolve_left (by omega)
    exact (place.behind window inside before newer).read rfl rfl (by omega)
  refine ⟨⟨?_, kept.once⟩, stopped.aligned, kept.marked, kept.receipted, ?_, ?_⟩
  · intro mark marked window inside passed newer
    have ahead := place.ahead mark marked
    exact earlier window inside (by omega) newer
  · intro batch stored
    obtain ⟨window, inside, read, there, source⟩ := stopped.sourced batch stored
    exact ⟨window, inside, read, mem_cons_of_mem _ there, source⟩
  · intro next there
    cases there
    refine ⟨⟨place.positive, place.aligned, place.ahead, earlier⟩, ?_⟩
    by_cases empty : (rollup settings format digest projectId rows).isEmpty = true
    · rw [if_pos empty] at reached
      subst reached
      refine ⟨mem_cons_self, .inr ⟨rows, ?_, List.isEmpty_iff.mp empty⟩⟩
      exact find?_cons_of_pos (by simp)
    · rw [if_neg empty] at reached
      subst reached
      exact ⟨mem_cons_self, rows, mem_cons_self, rfl⟩

theorem Kept.readWindow
    (place : InPlace settings format digest projectId s run) (answer : Option Scanned) :
    Kept settings format digest projectId (readWindow settings format digest projectId s run answer) := by
  cases answer with
  | none => exact kept.attempt place
  | some scanned =>
    simp only [Due.readWindow]
    split
    · exact kept.attempt place
    · exact kept.readWhole place scanned.rows rfl

theorem Kept.settled_of_stored
    (apart : IdsApart settings digest projectId s) {window : Int} (inside : window ∈ s.attempted)
    (stored : windowId settings digest projectId window ∈ s.stored.map Batch.batchId) :
    Settled settings format digest projectId s window := by
  obtain ⟨batch, there, named⟩ := mem_map.mp stored
  obtain ⟨source, attempted, rows, read, id, made⟩ := kept.sourced batch there
  obtain rfl : source = window := apart source attempted window inside (id.symm.trans named)
  refine .inl ⟨batch, rows, ?_, read, made⟩
  rw [← named]
  exact filter_eq_single kept.once there

theorem Kept.take (idle : s.run = none) {window : Int}
    {rows : List Row} (inside : window ∈ s.attempted) (read : (window, rows) ∈ s.reads)
    (apart : IdsApart settings digest projectId s)
    (held : windowId settings digest projectId window ∈ s.stored.map Batch.batchId →
      windowId settings digest projectId window ∈ s.receipts)
    (ahead : ∀ mark, s.rolledUpThrough = some mark → mark ≤ window) : Kept settings format digest projectId
        (s.take ⟨windowId settings digest projectId window, rollup settings format digest projectId rows⟩) ∧
      Settled settings format digest projectId
        (s.take ⟨windowId settings digest projectId window, rollup settings format digest projectId rows⟩) window := by
  by_cases receipt : windowId settings digest projectId window ∈ s.receipts
  · rw [take_eq_of_mem receipt]
    exact ⟨kept, kept.settled_of_stored apart inside (kept.receipted _ receipt)⟩
  · have fresh : windowId settings digest projectId window ∉ s.stored.map Batch.batchId := fun there =>
      receipt (held there)
    have after : ∀ mark, s.rolledUpThrough = some mark → ∀ other ∈ s.attempted, other < mark →
        Newer settings s.now other → Settled settings format digest projectId
          (s.take ⟨windowId settings digest projectId window, rollup settings format digest projectId rows⟩)
          other := by
      intro mark marked other attempted passed newer
      refine (kept.settled mark marked other attempted passed newer).take fun same => ?_
      have same := apart window inside other attempted same
      have order := ahead mark marked
      omega
    rw [take_eq_of_notMem receipt] at after ⊢
    refine ⟨⟨⟨after, nodup_cons.mpr ⟨fresh, kept.once⟩⟩, kept.aligned, kept.marked, ?_, ?_, ?_⟩, .inl ?_⟩
    · intro id there
      rcases mem_cons.mp there with rfl | there
      · exact mem_cons_self
      · exact mem_cons_of_mem _ (kept.receipted id there)
    · intro batch there
      rcases mem_cons.mp there with rfl | there
      · exact ⟨window, inside, rows, read, rfl, rfl⟩
      · exact kept.sourced batch there
    · intro run there
      exact absurd (idle.symm.trans there) (by simp)
    · have others : (s.stored.filter fun b => b.batchId = windowId settings digest projectId window) = [] :=
        filter_eq_nil_iff.mpr fun b found same =>
          fresh (of_decide_eq_true same ▸ mem_map_of_mem found)
      refine ⟨⟨windowId settings digest projectId window, rollup settings format digest projectId rows⟩,
        rows, ?_, read, rfl⟩
      rw [filter_cons_of_pos (by simp), others]

omit kept

theorem take_idle {batch : Batch} : ({ s with run := none } : State).take batch =
    { s.take batch with run := none } := by
  unfold State.take
  split <;> rfl

theorem Kept.resume (kept : Kept settings format digest projectId { s with run := none })
    (place : InPlace settings format digest projectId s run)
    (stage : AtStage settings format digest projectId s run) :
    Kept settings format digest projectId { s with run := some run } := by
  refine ⟨⟨kept.settled, kept.once⟩, kept.aligned, kept.marked, kept.receipted, kept.sourced, ?_⟩
  intro next there
  cases there
  obtain ⟨positive, aligned, ahead, behind⟩ := place
  exact ⟨⟨positive, aligned, ahead, behind⟩, stage⟩

variable (kept : Kept settings format digest projectId s)
include kept

theorem Kept.commitWindow (there : s.run = some run)
    {out : List Row} (stage : run.stage = .commit out) (answer : Answer) (apart : IdsApart settings digest projectId s)
    (held : windowId settings digest projectId run.through ∈ s.stored.map Batch.batchId →
      windowId settings digest projectId run.through ∈ s.receipts) :
    Kept settings format digest projectId (commitWindow settings digest projectId s run out answer) := by
  obtain ⟨place, reached⟩ := kept.placed run there
  simp only [AtStage, stage] at reached
  obtain ⟨inside, rows, read, rfl⟩ := reached
  obtain ⟨taken, settled⟩ := kept.stop.take rfl inside read apart held place.ahead
  rw [take_idle] at taken settled
  cases answer with
  | done =>
    refine taken.resume ⟨place.positive, place.aligned, ?_, ?_⟩ ⟨?_, settled⟩
    · intro mark marked
      exact place.ahead mark (take_mark.symm.trans marked)
    · intro window attempted before newer
      rw [take_attempted] at attempted
      rw [take_now] at newer
      refine (place.behind window attempted before newer).take fun same => ?_
      have same := apart run.through inside window attempted same
      have before : window < run.through := before
      omega
    · rw [take_attempted]
      exact inside
  | failed landed =>
    cases landed with
    | true => exact taken
    | false => exact kept.stop

theorem Kept.behind_of_mark
    (place : InPlace settings format digest projectId s run)
    (settled : Settled settings format digest projectId s run.through) :
    ∀ window ∈ s.attempted, window < run.through + settings.resolutionMs → Newer settings s.now window →
      Settled settings format digest projectId s window := by
  intro window inside before newer
  have reached := le_of_lt_add_width before (kept.aligned window inside) place.aligned
  rcases reached.lt_or_eq with behind | rfl
  · exact place.behind window inside behind newer
  · exact settled

theorem Kept.advance
    (place : InPlace settings format digest projectId s run)
    (settled : Settled settings format digest projectId s run.through) : Kept settings format digest projectId
      { s with rolledUpThrough := some (run.through + settings.resolutionMs), run := none } := by
  refine ⟨⟨?_, kept.once⟩, kept.aligned, ?_, kept.receipted, kept.sourced, fun _ none => by cases none⟩
  · intro mark marked window inside passed newer
    cases marked
    exact kept.behind_of_mark place settled window inside passed newer
  · intro mark marked
    cases marked
    exact Int.dvd_add place.aligned (Int.dvd_refl _)

theorem Kept.markWindow (there : s.run = some run)
    (stage : run.stage = .mark) (answer : Answer) :
    Kept settings format digest projectId (markWindow settings s run answer) := by
  obtain ⟨place, reached⟩ := kept.placed run there
  simp only [AtStage, stage] at reached
  have advanced := kept.advance place reached.2
  cases answer with
  | done =>
    simp only [Due.markWindow]
    cases entered : Run.enter settings { run with
      through := run.through + settings.resolutionMs, rolled := run.rolled + 1 } with
    | none => exact advanced
    | some next =>
      obtain rfl := enter_eq entered
      refine Kept.resume (s := { s with rolledUpThrough := some (run.through + settings.resolutionMs) })
        advanced ⟨place.positive, ?_, ?_, ?_⟩ trivial
      · exact Int.dvd_add place.aligned (Int.dvd_refl _)
      · intro mark marked
        cases marked
        exact le_refl _
      · exact kept.behind_of_mark place reached.2
  | failed landed =>
    cases landed with
    | true => exact advanced
    | false => exact kept.stop

omit kept

inductive Moves (settings : DownsampleSettings) (format : ℚ → String) (digest : Bytes → Id) (projectId : Id)
    (s : State) : Event → State → Prop where
  | begin (now : Int) (readable : Bool) (order : s.now ≤ now) : Moves settings format digest projectId s
      (.begin now readable)
      { s with now := now, run := if readable then beginRun settings s.rolledUpThrough now else none }
  | scan {run : Run} (there : s.run = some run) (answer : Option Scanned) :
      Moves settings format digest projectId s (.scan answer)
        (readWindow settings format digest projectId s run answer)
  | commit {run : Run} {out : List Row} (there : s.run = some run) (stage : run.stage = .commit out)
      (answer : Answer) : Moves settings format digest projectId s (.commit answer)
        (commitWindow settings digest projectId s run out answer)
  | mark {run : Run} (there : s.run = some run) (stage : run.stage = .mark) (answer : Answer) :
      Moves settings format digest projectId s (.mark answer) (markWindow settings s run answer)
  | crash : Moves settings format digest projectId s .crash { s with run := none }
  | expire (gone : List Id) : Moves settings format digest projectId s (.expire gone)
      { s with receipts := s.receipts.filter (· ∉ gone) }

theorem step_moves (next : step settings format digest projectId s e = some t) :
    Moves settings format digest projectId s e t := by
  cases e with
  | begin now readable =>
    simp only [step] at next
    split at next
    · rename_i guard
      cases next
      exact .begin now readable guard.2
    · cases next
  | scan answer =>
    simp only [step] at next
    split at next
    · rename_i run there
      split at next
      · cases next
        exact .scan there answer
      · cases next
    · cases next
  | commit answer =>
    simp only [step] at next
    split at next
    · rename_i run there
      split at next
      · rename_i out stage
        cases next
        exact .commit there stage answer
      · cases next
    · cases next
  | mark answer =>
    simp only [step] at next
    split at next
    · rename_i run there
      split at next
      · rename_i stage
        cases next
        exact .mark there stage answer
      · cases next
    · cases next
  | crash =>
    cases next
    exact .crash
  | expire gone =>
    cases next
    exact .expire gone

theorem kept_step (kept : Kept settings format digest projectId s) (apart : IdsApart settings digest projectId s)
    (allowed : KeepsItsPlace settings format digest projectId s e)
    (next : step settings format digest projectId s e = some t) : Kept settings format digest projectId t := by
  cases step_moves next with
  | begin now readable order => exact kept.begin order allowed
  | scan there answer => exact kept.readWindow (kept.placed _ there).1 answer
  | commit there stage answer => exact kept.commitWindow there stage answer apart (allowed _ there)
  | mark there stage answer => exact kept.markWindow there stage answer
  | crash => exact kept.stop
  | expire gone => exact kept.expire gone

theorem attempted_step (next : step settings format digest projectId s e = some t) :
    ∀ window ∈ s.attempted, window ∈ t.attempted := by
  intro window inside
  cases step_moves next with
  | @scan run there answer =>
    have tried : window ∈ run.through :: s.attempted := mem_cons_of_mem _ inside
    cases answer with
    | none => exact tried
    | some scanned =>
      simp only [readWindow]
      split <;> exact tried
  | @commit run out there stage answer =>
    cases answer with
    | done =>
      simp only [commitWindow, take_attempted]
      exact inside
    | failed landed =>
      cases landed with
      | true =>
        simp only [commitWindow, if_true, take_attempted]
        exact inside
      | false => exact inside
  | mark there stage answer =>
    cases answer with
    | done => exact inside
    | failed landed => exact inside
  | begin | crash | expire => exact inside

theorem kept_start (now : Int) : Kept settings format digest projectId (State.start now) := by
  constructor
  case toRolledUpOnce => exact ⟨fun _ marked => (by cases marked), nodup_nil⟩
  case aligned => exact fun _ inside => by cases inside
  case marked => exact fun _ marked => by cases marked
  case receipted => exact fun _ held => by cases held
  case sourced => exact fun _ stored => by cases stored
  case placed => exact fun _ there => by cases there

theorem kept_of_reach {now : Int} (ran : Reach (step settings format digest projectId)
      (KeepsItsPlace settings format digest projectId) (State.start now) s)
    (apart : IdsApart settings digest projectId s) : Kept settings format digest projectId s := by
  induction ran with
  | start => exact kept_start now
  | step e _ allowed next ih =>
    have more := attempted_step next
    have before := fun v left w right => apart v (more v left) w (more w right)
    exact kept_step (ih before) before allowed next

end

/-- In every run of passes that keep their place, no window that was attempted and is newer than
the detailed retention is passed over without its rollup, and no rollup is stored twice. -/
theorem every_window_rolled_up_once (settings : DownsampleSettings) (format : ℚ → String) (digest : Bytes → Id)
    (projectId : Id) (now : Int) (s : State)
    (ran : Reach (step settings format digest projectId) (KeepsItsPlace settings format digest projectId)
      (State.start now) s)
    (apart : IdsApart settings digest projectId s) : RolledUpOnce settings format digest projectId s :=
  (kept_of_reach ran apart).toRolledUpOnce

/-! A pass over windows of 60 that keeps 3600 of detail. -/

def everyMinute : DownsampleSettings := ⟨60, 3600, 0⟩

def stepping : State → Event → Option State := step everyMinute (fun _ => "") Rollup.lastBytes 0

def moved : Row :=
  Row.new 1 "metric-point" "hits" 70
    |>.withProperty "temporality" (.text "delta") "client"
    |>.withProperty "value" (.float 3) "client"

/-- No earlier window at all is left, and the receipts are there. -/
def Undisturbed (s : State) : Event → Prop
  | .begin now _ => s.rolledUpThrough ≠ none ∨ ∀ window ∈ s.attempted,
      firstWindow everyMinute none now ≤ window
  | .commit _ => ∀ batch ∈ s.stored, batch.batchId ∈ s.receipts
  | _ => True

instance (s : State) (e : Event) : Decidable (Undisturbed s e) := by
  unfold Undisturbed
  split <;> infer_instance

theorem Undisturbed.keeps {s : State} {e : Event} (undisturbed : Undisturbed s e) :
    KeepsItsPlace everyMinute (fun _ => "") Rollup.lastBytes 0 s e := by
  cases e with
  | begin now readable =>
    intro _ unmarked run began window inside _ _
    rw [(beginRun_eq began).2.1]
    exact undisturbed.resolve_left (not_not_intro unmarked) window inside
  | commit answer =>
    intro run _ stored
    obtain ⟨batch, there, named⟩ := mem_map.mp stored
    exact named ▸ undisturbed batch there
  | scan | mark | crash | expire => trivial

/-- A window that cannot be read, is read again, is committed before a stop, and is committed and
marked by the run after it. -/
def hindered : List Event :=
  [.begin 125 true, .scan none, .begin 130 true, .scan (some ⟨[moved], false⟩), .commit (.failed true), .crash,
    .begin 140 true, .scan (some ⟨[moved], false⟩), .commit .done, .mark .done]

theorem every_window_rolled_up_once_hindered : ∃ s,
    Reach stepping (KeepsItsPlace everyMinute (fun _ => "") Rollup.lastBytes 0) (State.start 0) s ∧
      s.rolledUpThrough = some 120 ∧ s.stored.length = 1 ∧
      RolledUpOnce everyMinute (fun _ => "") Rollup.lastBytes 0 s := by
  have ran : (exec (guarded stepping Undisturbed) (State.start 0) hindered).any (fun s =>
      s.rolledUpThrough = some 120 ∧ s.stored.length = 1 ∧ s.attempted = [60, 60, 60]) = true := by
    decide +kernel
  obtain ⟨s, reached, checks⟩ := Reach.of_exec_any ran
  obtain ⟨marked, one, attempted⟩ := of_decide_eq_true checks
  have reached := reached.weaken fun _ _ => Undisturbed.keeps
  refine ⟨s, reached, marked, one, every_window_rolled_up_once _ _ _ _ _ s reached ?_⟩
  intro v left w right _
  simp only [attempted, List.mem_cons, List.not_mem_nil, or_false, or_self] at left right
  rw [left, right]

/-- The first window cannot be read and no mark holds its place: the next run starts one window
later and marks past it. -/
theorem first_window_passed_over : ∃ s, Reach stepping anyStep (State.start 0) s ∧
    s.rolledUpThrough = some 180 ∧ 60 ∈ s.attempted ∧ Newer everyMinute s.now 60 ∧
      ¬ Settled everyMinute (fun _ => "") Rollup.lastBytes 0 s 60 := by
  have ran : (exec (guarded stepping anyStep) (State.start 0)
      [.begin 125 true, .scan none, .begin 185 true, .scan (some ⟨[], false⟩), .mark .done]).any (fun s =>
        s.rolledUpThrough = some 180 ∧ 60 ∈ s.attempted ∧ s.now = 185 ∧ s.stored.isEmpty ∧
          s.reads.all fun read => read.1 ≠ 60) = true := by
    decide +kernel
  obtain ⟨s, reached, checks⟩ := Reach.of_exec_any ran
  obtain ⟨marked, attempted, now, none, unread⟩ := of_decide_eq_true checks
  have never := fun rows there => of_decide_eq_true (List.all_eq_true.mp unread (60, rows) there)
  refine ⟨s, reached, marked, attempted, .inr (by simp [now, everyMinute]), ?_⟩
  rintro (⟨batch, rows, -, there, -⟩ | ⟨rows, last, -⟩)
  · exact never rows there rfl
  · exact never rows (List.mem_of_find?_eq_some last) rfl

end TallyOwl.Due
