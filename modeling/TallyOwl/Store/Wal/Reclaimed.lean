import TallyOwl.Lib.Sorted
import TallyOwl.Store.Wal.Books
import TallyOwl.Store.Xxh3

/-! What a reclamation removes. The walk to the first frame it must keep, the question
whether the prefix is worth the copy and the new file are one plan, and the plan is
computed here over the frames of the log. -/
namespace TallyOwl.Wal
open Lib Format List

/-- A log whose durable part is whole frames at rising positions. What lies behind the
durable part, and what is pending, may be anything. -/
structure DurableLog (hash : Bytes → UInt64) (disk : Disk) (shared : Shared)
    (frames : List Frame) : Prop where
  named : disk.named = shared.file
  opened : shared.file < disk.inodes.length
  durable : (disk.read shared.file).take shared.durableUpto =
    magicOf shared.headerChecksummed ++ encodeFrames hash shared.headerChecksummed frames
  upto : shared.durableUpto = (magicOf shared.headerChecksummed ++
    encodeFrames hash shared.headerChecksummed frames).length
  fits : ∀ f ∈ frames, f.Fits
  rising : frames.Pairwise fun f g => f.position < g.position

section
variable {hash : Bytes → UInt64} {settings : GroupCommit} {directory path : String}
  {disk : Disk} {shared : Shared} {frames : List Frame} {through : Nat}

theorem length_encodeFrames (headerChecksummed : Bool) (frames : List Frame) :
    (encodeFrames hash headerChecksummed frames).length =
      (frames.map fun f => frameHeaderBytes + f.payload.length).sum := by
  simp [encodeFrames, length_flatMap]

theorem readBack_durable {fault : Option Fault} (quiet : fault.filter (·.step = .read) = none)
    (durable : (disk.read shared.file).take shared.durableUpto =
      magicOf shared.headerChecksummed ++ encodeFrames hash shared.headerChecksummed frames)
    (upto : shared.durableUpto = (magicOf shared.headerChecksummed ++
      encodeFrames hash shared.headerChecksummed frames).length) : readBack directory fault disk shared =
      .ok (encodeFrames hash shared.headerChecksummed frames) := by
  have size := congrArg List.length durable
  rw [length_take, ← upto] at size
  have behind := congrArg (List.drop walMagic.length) durable
  rw [drop_take, ← length_magicOf shared.headerChecksummed, drop_left] at behind
  rw [length_append, length_magicOf] at upto
  have found : window (disk.read shared.file) walMagic.length
      (shared.durableUpto - walMagic.length) =
        some (encodeFrames hash shared.headerChecksummed frames) := by
    rw [window_eq_some]
    exact ⟨by omega, by simpa using behind⟩
  simp only [readBack, quiet, found]

/-- Whether the prefix is worth the copy: it is at least as long as what is kept, or it
reaches the bound of the settings. -/
def worthIt (settings : GroupCommit) (covered rest : Nat) : Bool :=
  0 < covered && (rest ≤ covered || settings.minReclaimBytes ≤ covered)

theorem planRewrite_durable {fault : Option Fault} (quiet : fault.filter (·.step = .read) = none)
    (durable : (disk.read shared.file).take shared.durableUpto =
      magicOf shared.headerChecksummed ++ encodeFrames hash shared.headerChecksummed frames)
    (upto : shared.durableUpto = (magicOf shared.headerChecksummed ++
      encodeFrames hash shared.headerChecksummed frames).length)
    (fits : ∀ f ∈ frames, f.Fits) :
    let covered := (encodeFrames hash shared.headerChecksummed
      (frames.takeWhile fun f => f.position ≤ through)).length
    let rest := encodeFrames hash true (frames.dropWhile fun f => f.position ≤ through)
    planRewrite hash settings directory through fault disk shared =
      .ok (if worthIt settings covered rest.length then some (covered, rest) else none) := by
  intro covered rest
  have walk := @keepFrom_encodeFrames hash shared.headerChecksummed [] through frames fits _
    (length_le_encodeFrames hash shared.headerChecksummed frames)
  have parts : encodeFrames hash shared.headerChecksummed frames =
      encodeFrames hash shared.headerChecksummed
        (frames.takeWhile fun f => f.position ≤ through) ++
      encodeFrames hash shared.headerChecksummed
        (frames.dropWhile fun f => f.position ≤ through) := by
    rw [← encodeFrames_append, takeWhile_append_dropWhile]
  have dropped : (encodeFrames hash shared.headerChecksummed frames).drop covered =
      encodeFrames hash shared.headerChecksummed
        (frames.dropWhile fun f => f.position ≤ through) := by
    rw [parts, drop_left]
  have again := @reencode_encodeFrames hash shared.headerChecksummed
    (frames.dropWhile fun f => f.position ≤ through)
    (fun f inside => fits f (dropWhile_subset _ inside))
  have size : (encodeFrames hash shared.headerChecksummed frames).length =
      covered + rest.length := by
    rw [parts, length_append, length_encodeFrames _ (frames.dropWhile _),
      ← length_encodeFrames true]
  unfold planRewrite
  split
  · rename_i short
    rw [upto, length_append, length_magicOf] at short
    have none : covered = 0 := by omega
    simp [worthIt, none]
  · simp only [nil_append, length_nil] at walk
    simp only [readBack_durable quiet durable upto, walk, bind, Except.bind]
    rw [show (encodeFrames hash shared.headerChecksummed
      (frames.takeWhile fun f => f.position ≤ through)).length = covered from rfl, dropped, again, size]
    split
    · rename_i none
      simp [worthIt, none]
    · split
      · rename_i waits
        have small : ¬ (rest.length ≤ covered ∨ settings.minReclaimBytes ≤ covered) := by omega
        simp [worthIt, small]
      · rename_i some copies
        have worth : worthIt settings covered rest.length = true := by
          simp only [worthIt, Bool.and_eq_true, Bool.or_eq_true, decide_eq_true_eq]
          omega
        simp only [worth, if_true]
        cases version : shared.headerChecksummed with
        | true => rfl
        | false => rfl

theorem planRewrite_ok {fault : Option Fault} {plan : Option (Nat × Bytes)}
    (durable : (disk.read shared.file).take shared.durableUpto =
      magicOf shared.headerChecksummed ++ encodeFrames hash shared.headerChecksummed frames)
    (upto : shared.durableUpto = (magicOf shared.headerChecksummed ++
      encodeFrames hash shared.headerChecksummed frames).length)
    (fits : ∀ f ∈ frames, f.Fits)
    (planned : planRewrite hash settings directory through fault disk shared = .ok plan) :
    let covered := (encodeFrames hash shared.headerChecksummed
      (frames.takeWhile fun f => f.position ≤ through)).length
    let rest := encodeFrames hash true (frames.dropWhile fun f => f.position ≤ through)
    plan = if worthIt settings covered rest.length then some (covered, rest) else none := by
  intro covered rest
  by_cases quiet : fault.filter (·.step = .read) = none
  · rw [planRewrite_durable quiet durable upto fits] at planned
    exact (Except.ok.inj planned).symm
  · unfold planRewrite at planned
    split at planned
    · rename_i short
      rw [upto, length_append, length_magicOf] at short
      have none : frames = [] :=
        (encodeFrames_eq_nil hash shared.headerChecksummed).mp
          (length_eq_zero_iff.mp (by omega))
      subst none
      exact (Except.ok.inj planned).symm
    · obtain ⟨broken, there⟩ := Option.ne_none_iff_exists'.mp quiet
      simp [readBack, there, bind, Except.bind] at planned

def LeftAlone (s t : State) : Prop :=
  t.disk = s.disk ∧ ∃ wanted, t.shared = { s.shared with reclaimWanted := wanted }

/-- The covered frames are gone and no other: the file reads back as version 2 with the
frames above `through`, and the offsets stand at its end. -/
structure RemovedPrefix (hash : Bytes → UInt64) (path : String) (frames : List Frame)
    (through removed : Nat) (s t : State) : Prop where
  returned : removed = (encodeFrames hash s.shared.headerChecksummed
    (frames.filter fun f => f.position ≤ through)).length
  recovered : ∀ acknowledged, recover hash path (some (t.disk.read t.disk.named)) acknowledged =
    .ok ⟨frames.filter fun f => through < f.position, (t.disk.read t.disk.named).length,
      nextAfter 0 (frames.filter fun f => through < f.position), true⟩
  log : DurableLog hash t.disk t.shared (frames.filter fun f => through < f.position)
  writeOffset : t.shared.writeOffset = (t.disk.read t.disk.named).length
  durableUpto : t.shared.durableUpto = (t.disk.read t.disk.named).length
  headerChecksummed : t.shared.headerChecksummed = true
  nextPosition : t.shared.nextPosition = s.shared.nextPosition
  durableBefore : t.shared.durableBefore = s.shared.durableBefore
  pending : t.shared.pending = s.shared.pending
  pendingFrames : t.shared.pendingFrames = s.shared.pendingFrames

theorem DurableLog.le_positions (log : DurableLog hash disk shared frames) :
    frames.Pairwise fun f g => f.position ≤ g.position :=
  log.rising.imp Nat.le_of_lt

theorem rewrite_durable {fault : Option Fault} (log : DurableLog hash disk shared frames) :
    let covered := (encodeFrames hash shared.headerChecksummed
      (frames.filter fun f => f.position ≤ through)).length
    let rest := encodeFrames hash true (frames.filter fun f => through < f.position)
    let result := rewrite hash settings directory through fault disk shared
    (fault = none → ∃ n, result.2.2 = .ok n) ∧
    ∀ n, result.2.2 = .ok n →
      (n = 0 ∧ result.1 = disk ∧ result.2.1 = shared) ∨
      (n = covered ∧ result.1 = disk.replace (magicOf true ++ rest) ∧
        result.2.1 = { shared with
          file := disk.inodes.length
          writeOffset := (magicOf true ++ rest).length
          durableUpto := (magicOf true ++ rest).length
          headerChecksummed := true }) := by
  intro covered rest
  unfold rewrite
  cases planned : planRewrite hash settings directory through fault disk shared with
  | error e =>
    refine ⟨?_, fun n answer => by cases answer⟩
    rintro rfl
    rw [planRewrite_durable rfl log.durable log.upto log.fits] at planned
    cases planned
  | ok plan =>
    have planned := planRewrite_ok log.durable log.upto log.fits planned
    simp only [takeWhile_eq_filter log.le_positions, dropWhile_eq_filter log.le_positions]
      at planned
    split at planned
    · subst planned
      cases fault with
      | none =>
        refine ⟨fun _ => ⟨covered, rfl⟩, fun n answer => .inr ?_⟩
        cases answer
        exact ⟨rfl, rfl, by simp [Disk.replace, magicOf, rest]⟩
      | some fault =>
        refine ⟨fun none => absurd none (by simp), fun n answer => ?_⟩
        dsimp only at answer
        split at answer
        · cases answer
        · cases answer
    · subst planned
      refine ⟨fun _ => ⟨0, rfl⟩, fun n answer => .inl ?_⟩
      cases answer
      exact ⟨rfl, rfl, rfl⟩

theorem DurableLog.replaced (log : DurableLog hash disk shared frames) (through : Nat) :
    let rest := frames.filter fun f => through < f.position
    DurableLog hash (disk.replace (magicOf true ++ encodeFrames hash true rest))
      { shared with
        file := disk.inodes.length
        writeOffset := (magicOf true ++ encodeFrames hash true rest).length
        durableUpto := (magicOf true ++ encodeFrames hash true rest).length
        headerChecksummed := true } rest := by
  intro rest
  refine ⟨rfl, by simp [Disk.replace], ?_, rfl, ?_, log.rising.sublist filter_sublist⟩
  · rw [Disk.read_replace, take_length]
  · exact fun f inside => log.fits f (mem_of_mem_filter inside)

theorem reclaimTurn_removes {s : State} {fault : Option Fault} (reclaims : List Reclaim)
    (log : DurableLog hash s.disk s.shared frames) :
    let turn := reclaimTurn hash settings directory s through fault
    let t := { turn.1 with reclaims }
    (fault = none → ∃ n, turn.2 = .ok n) ∧
    ∀ n, turn.2 = .ok n →
      (n = 0 ∧ LeftAlone s t) ∨ RemovedPrefix hash path frames through n s t := by
  intro turn t
  have entered : DurableLog hash s.disk
      { s.shared with reclaimWanted := s.shared.reclaimWanted - 1 } frames :=
    ⟨log.named, log.opened, log.durable, log.upto, log.fits, log.rising⟩
  obtain ⟨answers, cases⟩ := @rewrite_durable hash settings directory _ _ _ through fault entered
  refine ⟨answers, fun n answer => ?_⟩
  rcases cases n answer with ⟨rfl, disk, shared⟩ | ⟨rfl, disk, shared⟩
  · exact .inl ⟨rfl, disk, s.shared.reclaimWanted - 1, shared⟩
  · have after := entered.replaced through
    have file : t.disk.read t.disk.named = magicOf true ++
        encodeFrames hash true (frames.filter fun f => through < f.position) := by
      simp only [t, turn, reclaimTurn, disk]
      exact Disk.read_replace _ _
    right
    refine ⟨rfl, fun acknowledged => ?_, ?_, ?_, ?_, ?_, ?_, ?_, ?_, ?_⟩
    · rw [file]
      exact recover_acknowledged (recover_whole hash path true _ after.fits) rfl acknowledged
    · simp only [t, turn, reclaimTurn, disk, shared]
      exact after
    · rw [file]
      simp only [t, turn, reclaimTurn, shared]
    · rw [file]
      simp only [t, turn, reclaimTurn, shared]
    all_goals simp only [t, turn, reclaimTurn, shared]

/-- A reclamation that had no answer before the step has this one after it. -/
def Answered (s t : State) (through : Nat) (result : Except WalError Nat) : Prop :=
  ∃ j : Nat, t.reclaims[j]? = some ⟨through, some result⟩ ∧ s.reclaims[j]? ≠ t.reclaims[j]?

def Event.fault : Event → Option Fault
  | .reclaim _ fault | .reclaimWake _ fault => fault
  | _ => none

theorem answered_push {s t : State} {r : Reclaim} {result : Except WalError Nat}
    (pushed : t.reclaims = s.reclaims ++ [r]) (answered : Answered s t through result) :
    r = ⟨through, some result⟩ := by
  obtain ⟨j, there, new⟩ := answered
  rw [pushed] at there new
  rcases Nat.lt_trichotomy j s.reclaims.length with old | rfl | beyond
  · exact absurd (getElem?_append_left old).symm new
  · simpa using there
  · rw [getElem?_eq_none (by simp; omega)] at there
    cases there

theorem answered_set {s t : State} {r : Reclaim} {i : Nat} {result : Except WalError Nat}
    (changed : t.reclaims = s.reclaims.set i r) (answered : Answered s t through result) :
    r = ⟨through, some result⟩ := by
  obtain ⟨j, there, new⟩ := answered
  rw [changed] at there new
  rcases eq_or_ne i j with rfl | other
  · rw [getElem?_set] at there
    split at there
    · split at there
      · exact Option.some.inj there
      · cases there
    · contradiction
  · exact absurd (getElem?_set_ne other).symm new

/-- A reclamation ends with the log as it was, or with the covered frames gone and every
other in a version 2 file. It has no other answer while the device refuses nothing. -/
theorem reclaim_removes_covered_frames {s t : State} {e : Event} {result : Except WalError Nat}
    (log : DurableLog hash s.disk s.shared frames)
    (next : step hash settings directory s e = some t) (answered : Answered s t through result) :
    (e.fault = none → ∃ n, result = .ok n) ∧ ∀ n, result = .ok n →
      (n = 0 ∧ LeftAlone s t) ∨ RemovedPrefix hash path frames through n s t := by
  have kept : ¬ t.reclaims = s.reclaims := by
    obtain ⟨j, -, new⟩ := answered
    intro same
    exact new (by rw [same])
  cases e with
  | append payload =>
    simp only [step, bind, Option.bind] at next
    split at next
    · cases next
    · exact absurd (Option.some.inj next ▸ rfl) kept
  | wake i =>
    simp only [step] at next
    split at next
    · exact absurd (Option.some.inj next ▸ rfl) kept
    · cases next
  | lingered i =>
    simp only [step] at next
    split at next
    · exact absurd (Option.some.inj next ▸ rfl) kept
    · cases next
  | device i part =>
    simp only [step] at next
    split at next
    · split at next
      · exact absurd (Option.some.inj next ▸ rfl) kept
      · cases next
    · cases next
  | written i =>
    simp only [step] at next
    split at next
    · exact absurd (Option.some.inj next ▸ rfl) kept
    · cases next
  | refused i error =>
    simp only [step] at next
    split at next
    · exact absurd (Option.some.inj next ▸ rfl) kept
    · cases next
  | reclaim upTo fault =>
    simp only [step] at next
    split at next
    · cases next
      cases answered_push rfl answered
    · cases next
      cases answered_push rfl answered
      obtain ⟨answers, cases⟩ := @reclaimTurn_removes hash settings directory path frames through
        { s with shared := { s.shared with reclaimWanted := s.shared.reclaimWanted + 1 } } fault
        (s.reclaims ++ [⟨through, some _⟩])
        ⟨log.named, log.opened, log.durable, log.upto, log.fits, log.rising⟩
      refine ⟨answers, fun n answer => ?_⟩
      rcases cases n answer with ⟨none, alone⟩ | removed
      · exact .inl ⟨none, alone.1, alone.2⟩
      · exact .inr ⟨removed.returned, removed.recovered, removed.log, removed.writeOffset,
          removed.durableUpto, removed.headerChecksummed, removed.nextPosition,
          removed.durableBefore, removed.pending, removed.pendingFrames⟩
  | reclaimWake j fault =>
    simp only [step] at next
    split at next
    · split at next
      · exact absurd (Option.some.inj next ▸ rfl) kept
      · cases next
        cases answered_set rfl answered
        exact reclaimTurn_removes _ log
    · cases next
  | reclaimTimedOut j =>
    simp only [step] at next
    split at next
    · cases next
      cases answered_set rfl answered
      refine ⟨fun _ => ⟨0, rfl⟩, fun n answer => .inl ?_⟩
      cases answer
      exact ⟨rfl, rfl, s.shared.reclaimWanted - 1, rfl⟩
    · cases next

end

section
open Xxh3

def twoFrames : List Frame := [⟨3, [7, 7, 7]⟩, ⟨5, List.replicate 24 9⟩]

def olderTwoFrames : State :=
  { disk := ⟨[magicOf false ++ encodeFrames xxh3 false twoFrames], 0⟩
    shared := { (default : Shared) with
      writeOffset := 75
      durableUpto := 75
      durableBefore := 6
      nextPosition := 6 }
    calls := []
    reclaims := [] }

theorem olderTwoFrames_log : DurableLog xxh3 olderTwoFrames.disk olderTwoFrames.shared twoFrames :=
  ⟨rfl, by decide, by decide +kernel, by decide +kernel, by
    intro f inside
    simp only [twoFrames, mem_cons, not_mem_nil, or_false] at inside
    rcases inside with rfl | rfl
    · exact ⟨by decide, by decide⟩
    · exact ⟨by decide, by decide⟩, by decide⟩

/-- The first frame is worth the copy where the settings say so. -/
theorem reclaim_removes_first_frame :
    ∃ t, step xxh3 { (default : GroupCommit) with minReclaimBytes := 20 } "tablet" olderTwoFrames
        (.reclaim 3 none) = some t ∧ t.reclaims = [⟨3, some (.ok 23)⟩] ∧
      RemovedPrefix xxh3 "tablet/append.log" twoFrames 3 23 olderTwoFrames t := by
  have ran : (step xxh3 { (default : GroupCommit) with minReclaimBytes := 20 } "tablet"
      olderTwoFrames (.reclaim 3 none)).map State.reclaims = some [⟨3, some (.ok 23)⟩] := by
    decide +kernel
  obtain ⟨t, next, answered⟩ := Option.map_eq_some_iff.mp ran
  refine ⟨t, next, answered, ?_⟩
  rcases (reclaim_removes_covered_frames olderTwoFrames_log next
    ⟨0, by rw [answered]; rfl, by rw [answered]; decide⟩).2 23 rfl with ⟨none, -⟩ | removed
  · cases none
  · exact removed

end
end TallyOwl.Wal
