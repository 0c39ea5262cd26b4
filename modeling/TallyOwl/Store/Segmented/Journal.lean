import TallyOwl.Store.Segmented.Live
import TallyOwl.Store.Wal.Atomic

/-! The append log under a running store: which frames it answers for, how far a
reclamation may reach, and where the frame of each commit in flight is. -/
namespace TallyOwl.Segmented
open Lib Format Locate RowCodec

/-- One of the rows shows as this one does. A float comes back from the log as the number
its text names, so a row read back is the row up to that. -/
def Shows (node : Node) (rows : List EventRow) (row : EventRow) : Prop :=
  ∃ r ∈ rows, shown node.floatText r = shown node.floatText row

def Framed (node : Node) (frames : List Wal.Frame) (first : Nat) (row : EventRow) : Prop :=
  ∃ f ∈ frames, first ≤ f.position ∧
    ∃ rows, decodeRows node.parseFloat f.payload = .ok rows ∧ Shows node rows row

def State.checkpoint (s : State) : Nat := s.catalog.logCheckpoint.getD 0

/-- The text of a float reads back, as a number with the same text. -/
structure FloatsReadBack (node : Node) : Prop where
  reads : ∀ bits, (node.parseFloat (node.floatText bits)).isSome
  same : ∀ bits back, node.parseFloat (node.floatText bits) = some back →
    node.floatText back = node.floatText bits

structure RowsFit (node : Node) (rows : List EventRow) : Prop where
  many : rows.length < 2 ^ 64
  each : ∀ row ∈ rows, RowFits node.floatText row

instance (node : Node) (rows : List EventRow) : Decidable (RowsFit node rows) :=
  decidable_of_iff (rows.length < 2 ^ 64 ∧ ∀ row ∈ rows, RowFits node.floatText row)
    ⟨fun ⟨many, each⟩ => ⟨many, each⟩, fun fit => ⟨fit.many, fit.each⟩⟩

section
variable {node : Node} {frames frames' : List Wal.Frame} {first first' : Nat} {row : EventRow}
  {rows : List EventRow}

theorem shows_of_mem (inside : row ∈ rows) : Shows node rows row := ⟨row, inside, rfl⟩

theorem Shows.mono {rows' : List EventRow} (shows_ : Shows node rows row)
    (more : ∀ r ∈ rows, r ∈ rows') : Shows node rows' row :=
  shows_.imp fun r both => ⟨more r both.1, both.2⟩

theorem Framed.mono (framed : Framed node frames first row) (lower : first' ≤ first)
    (stays : ∀ f ∈ frames, first ≤ f.position → f ∈ frames') : Framed node frames' first' row := by
  obtain ⟨f, inside, above, rest⟩ := framed
  exact ⟨f, stays f inside above, lower.trans above, rest⟩

theorem framed_encodeRows (floats : FloatsReadBack node) (fit : RowsFit node rows) {position : Nat}
    (inside : ⟨position, encodeRows node.floatText rows⟩ ∈ frames) (above : first ≤ position)
    (there : row ∈ rows) : Framed node frames first row := by
  refine ⟨_, inside, above, _, decodeRows_encodeRows floats.reads fit.many fit.each,
    replayed node.floatText node.parseFloat row, List.mem_map.mpr ⟨row, there, rfl⟩, ?_⟩
  exact shown_replayed floats.same row

theorem shows_replayRows {checkpoint : Nat} (framed : Framed node frames checkpoint row) :
    Shows node (replayRows node frames checkpoint) row := by
  obtain ⟨f, inside, above, rows, decoded, shows_⟩ := framed
  refine shows_.mono fun r there => List.mem_flatMap.mpr
    ⟨f, List.mem_filter.mpr ⟨inside, by simpa using above⟩, ?_⟩
  rw [decoded]
  exact there

end

/-- The log answers for these frames, and no reclamation reaches the checkpoint. -/
structure Journal (node : Node) (wal : Wal.State) (kept : List Wal.Frame) (checkpoint : Nat) :
    Prop where
  clean : ∃ flying waiting, Wal.Clean node.hash wal kept flying waiting
  reclaims : ∀ r ∈ wal.reclaims, r.through < checkpoint

/-- Where the frame of a commit in flight is: above everything the segments may cover. -/
def InFlight (node : Node) (m : Memory) (kept : List Wal.Frame) (c : Commit) : Prop :=
  match c.stage with
  | .appending _ _ frame => frame < m.wal.calls.length ∧
      ∀ call, m.wal.calls[frame]? = some call → call.payload = encodeRows node.floatText c.rows ∧
        ∀ p, call.stage.position = some p → m.openFrom ≤ p
  | .logged _ _ p | .received _ _ p => ⟨p, encodeRows node.floatText c.rows⟩ ∈ kept ∧
      m.openFrom ≤ p ∧ p < m.wal.shared.nextPosition
  | _ => True

section
variable {node : Node} {m : Memory} {wal : Wal.State} {kept kept' : List Wal.Frame}
  {checkpoint : Nat} {e : Wal.Event} {c : Commit}

theorem Journal.step (journal : Journal node m.wal kept checkpoint)
    (ran : walStep node m.wal e = some wal) (whole : e.whole = true) (fits : Wal.PayloadFits m.wal e)
    (bound : ∀ through fault, e = .reclaim through fault → through < checkpoint) :
    ∃ kept', Journal node wal kept' checkpoint ∧ ∀ f ∈ kept, checkpoint ≤ f.position → f ∈ kept' := by
  obtain ⟨flying, waiting, clean⟩ := journal.clean
  obtain ⟨kept', flying', waiting', clean', stays⟩ := clean.step whole fits ran
  have reclaims : ∀ r ∈ wal.reclaims, r.through < checkpoint := by
    intro r inside
    rcases (Wal.step_onward ran).reclaims r inside with ⟨r', old, same⟩ | ⟨fault, enters⟩
    · exact same ▸ journal.reclaims r' old
    · exact bound _ fault enters
  refine ⟨kept', ⟨⟨flying', waiting', clean'⟩, reclaims⟩, fun f inside above => ?_⟩
  rcases stays f inside with held | ⟨r, there, covers, -⟩
  · exact held
  · exact absurd (reclaims r there) (by omega)

theorem InFlight.step (flight : InFlight node m kept c) (bound : checkpoint ≤ m.openFrom)
    (ran : walStep node m.wal e = some wal) (stays : ∀ f ∈ kept, checkpoint ≤ f.position → f ∈ kept') :
    InFlight node { m with wal } kept' c := by
  have onward := Wal.step_onward ran
  have settled : ∀ p, (⟨p, encodeRows node.floatText c.rows⟩ ∈ kept ∧ m.openFrom ≤ p ∧
      p < m.wal.shared.nextPosition) → ⟨p, encodeRows node.floatText c.rows⟩ ∈ kept' ∧
        m.openFrom ≤ p ∧ p < wal.shared.nextPosition :=
    fun p ⟨inside, above, below⟩ =>
      ⟨stays _ inside (bound.trans above), above, below.trans_le onward.nextPosition⟩
  unfold InFlight at flight ⊢
  split at flight
  · rename_i frame stage
    refine ⟨flight.1.trans_le onward.length, fun call found => ?_⟩
    rcases onward.calls frame call found with ⟨old, before, same, position⟩ | ⟨new, -⟩
    · obtain ⟨payload, above⟩ := flight.2 old before
      exact ⟨same.trans payload, fun p held => above p (position p held)⟩
    · exact absurd flight.1 (by omega)
  · exact settled _ flight
  · exact settled _ flight
  · trivial

end

theorem ofLog_inner {e : Wal.Event} (own : ofLog e = true) (wal : Wal.State) :
    e.whole = true ∧ Wal.PayloadFits wal e ∧ ∀ through fault, e ≠ .reclaim through fault := by
  cases e <;> simp_all [ofLog, Wal.Event.whole, Wal.PayloadFits]

theorem startAtLeast_clean {hash : Bytes → UInt64} {wal : Wal.State} {kept : List Wal.Frame}
    (clean : Wal.Clean hash wal kept [] []) (calls : wal.calls = []) (floor : Nat) :
    Wal.Clean hash (startAtLeast wal floor) kept [] [] ∧
      (startAtLeast wal floor).calls = [] ∧ (startAtLeast wal floor).reclaims = wal.reclaims ∧
      wal.shared.nextPosition ≤ (startAtLeast wal floor).shared.nextPosition ∧
      floor ≤ (startAtLeast wal floor).shared.nextPosition := by
  unfold startAtLeast
  split
  · rename_i low
    have below := clean.inv.books.below
    have pending : wal.shared.pending = [] := clean.inv.books.pending
    refine ⟨⟨⟨{ clean.inv.books with
        ahead := by simp
        assigned := by simp
        below := ?_ }, ?_, ?_, ?_⟩, clean.version, clean.exact⟩, calls, rfl, low.le, le_refl _⟩
    · simp only [pending, if_true]
      exact max_le (below.trans low.le) (le_refl _)
    · cases clean.inv.crew with
      | idle free empty nobody level => exact .idle free empty nobody level
      | led i c taken working there => simp [calls] at there
    · exact ⟨by simp [calls], by simp [calls]⟩
    · simp [calls]
  · rename_i high
    exact ⟨clean, calls, rfl, le_refl _, not_lt.mp high⟩

end TallyOwl.Segmented
