import Mathlib.Data.List.Induction
import TallyOwl.Store.Wal.Group
import TallyOwl.Store.Wal.Recovery

/-! A log cut off at any byte behind its magic, as a crash during a write leaves it: what
recovery reads of it, what a reopened log is, and one append to that log. -/
namespace TallyOwl.Wal
open Lib Format List

section
variable {hash : Bytes → UInt64} {headerChecksummed : Bool} {f : Frame}

theorem slice_take {bytes x : Bytes} {n start width : Nat}
    (read : slice (bytes.take n) start width = .ok x) : slice bytes start width = .ok x := by
  obtain ⟨inside, taken⟩ := window_eq_some.mp (slice_ok.mp read)
  rw [length_take] at inside
  refine slice_ok.mpr (window_eq_some.mpr ⟨by omega, ?_⟩)
  rw [← taken, drop_take, take_take, Nat.min_eq_left (by omega)]

theorem getU32_take {bytes : Bytes} {n start value : Nat}
    (read : getU32 (bytes.take n) start = .ok value) : getU32 bytes start = .ok value := by
  cases found : slice (bytes.take n) start 4 with
  | error e => simp [getU32, found, Except.map] at read
  | ok x => rw [getU32, slice_take found, ← read, getU32, found]

/-- A cut anywhere in a frame, header or payload, leaves no frame there: the length is
either gone or names bytes that are. -/
theorem frameAt_torn (fits : f.Fits) (before after : Bytes) {cut : Nat}
    (short : cut < before.length + frameHeaderBytes + f.payload.length) :
    frameAt hash ((before ++ (encodeFrame hash f.position f.payload headerChecksummed ++ after)).take
      cut) before.length headerChecksummed = none := by
  unfold frameAt
  split
  · rename_i length position checksum hl hp hs
    have same := (getU32_take hl).symm.trans (getU32_frame before after fits)
    cases same
    rw [window_of_lt (by rw [length_take]; omega)]
  · rfl

theorem exists_whole (before : Bytes) (frames : List Frame) {cut : Nat} (behind : before.length ≤ cut) :
    ∃ k, k ≤ frames.length ∧ (before ++ encodeFrames hash headerChecksummed (frames.take k)).length ≤ cut ∧
      (k < frames.length → cut < (before ++ encodeFrames hash headerChecksummed (frames.take (k + 1))).length) := by
  let P : Nat → Prop := fun k =>
    (before ++ encodeFrames hash headerChecksummed (frames.take k)).length ≤ cut
  have first : P 0 := by simpa [P] using behind
  have last : P (Nat.findGreatest P frames.length) :=
    Nat.findGreatest_spec (Nat.zero_le frames.length) first
  refine ⟨Nat.findGreatest P frames.length, Nat.findGreatest_le _, last, fun more => ?_⟩
  exact not_le.mp (Nat.findGreatest_is_greatest (P := P) (Nat.lt_succ_self _) more)

theorem recover_cut (hash : Bytes → UInt64) (path : String) (headerChecksummed : Bool)
    (frames : List Frame) (fits : ∀ f ∈ frames, f.Fits) {cut k : Nat} (whole : (magicOf headerChecksummed ++
      encodeFrames hash headerChecksummed (frames.take k)).length ≤ cut)
    (next : k < frames.length → cut < (magicOf headerChecksummed ++
      encodeFrames hash headerChecksummed (frames.take (k + 1))).length) :
    recover hash path (some ((magicOf headerChecksummed ++ encodeFrames hash headerChecksummed frames).take cut)) none =
        .ok ⟨frames.take k, (magicOf headerChecksummed ++ encodeFrames hash headerChecksummed (frames.take k)).length,
          nextAfter 0 (frames.take k), headerChecksummed⟩ := by
  have parts : magicOf headerChecksummed ++ encodeFrames hash headerChecksummed frames =
      (magicOf headerChecksummed ++ encodeFrames hash headerChecksummed (frames.take k)) ++
        encodeFrames hash headerChecksummed (frames.drop k) := by
    rw [append_assoc, ← encodeFrames_append, take_append_drop]
  have stops : frameAt hash ((magicOf headerChecksummed ++
        encodeFrames hash headerChecksummed frames).take cut)
      (magicOf headerChecksummed ++ encodeFrames hash headerChecksummed (frames.take k)).length
      headerChecksummed = none := by
    rcases Nat.lt_or_ge k frames.length with more | all
    · obtain ⟨f, later, split⟩ : ∃ f later, frames.drop k = f :: later :=
        ⟨_, _, drop_eq_getElem_cons more⟩
      rw [parts, split, encodeFrames_cons]
      refine frameAt_torn (fits f (mem_of_mem_drop (split ▸ mem_cons_self))) _ _ ?_
      have end' := next more
      rw [take_add, split] at end'
      simpa [encodeFrames_append, encodeFrames_cons, Nat.add_assoc] using end'
    · rw [take_of_length_le all, take_of_length_le (by
        rw [take_of_length_le all] at whole
        exact whole)]
      exact frameAt_past_end _ _ _
  have taken : (magicOf headerChecksummed ++ encodeFrames hash headerChecksummed frames).take cut =
      magicOf headerChecksummed ++ (encodeFrames hash headerChecksummed (frames.take k) ++
        (encodeFrames hash headerChecksummed (frames.drop k)).take (cut - (magicOf headerChecksummed ++
          encodeFrames hash headerChecksummed (frames.take k)).length)) := by
    rw [parts, take_append, take_of_length_le whole, append_assoc]
  rw [taken] at stops ⊢
  exact recover_stops hash path headerChecksummed _
    (fun f inside => fits f (mem_of_mem_take inside)) _ stops

end

section
variable {hash : Bytes → UInt64} {settings : GroupCommit} {directory path : String}
  {headerChecksummed : Bool} {frames : List Frame} {payload : Bytes}

def reopened (hash : Bytes → UInt64) (headerChecksummed : Bool) (frames : List Frame) : State :=
  let bytes := magicOf headerChecksummed ++ encodeFrames hash headerChecksummed frames
  { disk := ⟨[bytes], 0⟩
    shared := {
      file := 0
      pending := []
      pendingFrames := 0
      writeOffset := bytes.length
      durableUpto := bytes.length
      durableBefore := nextAfter 0 frames
      committing := false
      reclaimWanted := 0
      nextPosition := nextAfter 0 frames
      statistics := ⟨0, 0, 0, 0⟩
      failure := none
      headerChecksummed }
    calls := []
    reclaims := [] }

theorem openAcknowledged_reopened {bytes : Bytes} {acknowledged : Option Nat} {upto : Nat}
    (read : recover hash path (some bytes) acknowledged = .ok ⟨frames, upto, nextAfter 0 frames, headerChecksummed⟩)
    (laid : bytes.take upto = magicOf headerChecksummed ++ encodeFrames hash headerChecksummed frames)
    (size : upto = (magicOf headerChecksummed ++ encodeFrames hash headerChecksummed frames).length) :
    openAcknowledged hash path (some bytes) acknowledged =
      .ok (reopened hash (frames = [] || headerChecksummed) frames) := by
  simp only [openAcknowledged, read, bind, Except.bind, Option.getD_some]
  by_cases none : frames = []
  · subst none
    have eight : upto = walMagic.length := by simpa using size
    simp [reopened, magicOf, nextAfter, eight]
  · have version : (decide (frames = []) || headerChecksummed) = headerChecksummed := by simp [none]
    have long : max upto walMagic.length = upto := by
      rw [size, length_append, length_magicOf]
      omega
    rw [if_neg none, laid, long, version, size]
    rfl

/-- The events of one `append` while no other caller is there. -/
def alone (settings : GroupCommit) (payload : Bytes) : List Event :=
  .append payload :: (if settings.linger = 0 then [.written 0] else [.lingered 0, .written 0])

theorem writeAt_length (file bytes : Bytes) : writeAt file file.length bytes = file ++ bytes := by
  simp [writeAt]

theorem commitLoop_single {position : Nat} {shared : Shared} {f : Frame} (fits : f.Fits)
    (pending : shared.pending = encodeFrames hash shared.headerChecksummed [f])
    (counted : shared.pendingFrames = 1) (quiet : shared.reclaimWanted = 0) :
    commitLoop settings position shared =
      ({ shared with
          pending := []
          pendingFrames := 0
          writeOffset := shared.writeOffset + shared.pending.length
          statistics := { shared.statistics with
            largestGroup := max shared.statistics.largestGroup 1 } },
        .writing position shared.pending shared.writeOffset shared.file) := by
  have fitsAll : ∀ g ∈ [f], g.Fits := by
    intro g inside
    rw [mem_singleton.mp inside]
    exact fits
  obtain ⟨k, small, positive, group, -, -⟩ :=
    @takeGroup_taken hash settings shared [f] pending fitsAll counted
  obtain rfl : k = 1 := by
    have := positive (by simp)
    simp at small
    omega
  simp only [take_succ_cons, take_zero, drop_succ_cons, drop_zero,
    encodeFrames_nil, length_nil, ← pending] at group
  have some : shared.pending ≠ [] := by
    rw [pending]
    exact fun empty => by cases (encodeFrames_eq_nil _ _).mp empty
  have one : framesIn shared.pending = 1 := by rw [pending, framesIn_encodeFrames hash _ _ fitsAll]; rfl
  simp only [commitLoop, group, quiet, if_neg some, one]
  rfl

/-- A reopened log while its only caller commits: one frame pends. -/
def committingOne (hash : Bytes → UInt64) (headerChecksummed : Bool) (frames : List Frame)
    (payload : Bytes) : Shared :=
  { (reopened hash headerChecksummed frames).shared with
    nextPosition := nextAfter 0 frames + 1
    pending := encodeFrames hash headerChecksummed [⟨nextAfter 0 frames, payload⟩]
    pendingFrames := 1
    committing := true }

theorem append_committingOne (room : nextAfter 0 frames + 1 < 2 ^ 64) :
    append hash settings payload (reopened hash headerChecksummed frames).shared = some (if settings.linger = 0 then
          commitLoop settings (nextAfter 0 frames) (committingOne hash headerChecksummed frames payload)
        else (committingOne hash headerChecksummed frames payload, .lingering (nextAfter 0 frames))) := by
  have room : (reopened hash headerChecksummed frames).shared.nextPosition + 1 < 2 ^ 64 := room
  have waits : ¬ nextAfter 0 frames < (reopened hash headerChecksummed frames).shared.durableBefore :=
    lt_irrefl _
  unfold append
  rw [if_pos room]
  simp [reopened, waitLoop, committingOne, encodeFrames]

/-- The state in which the group with the one frame has left for the device. -/
def writingOne (hash : Bytes → UInt64) (settings : GroupCommit) (headerChecksummed : Bool)
    (frames : List Frame) (payload : Bytes) : State :=
  let result := commitLoop settings (nextAfter 0 frames)
    (committingOne hash headerChecksummed frames payload)
  ⟨(reopened hash headerChecksummed frames).disk, result.1, [⟨payload, result.2⟩], []⟩

theorem writingOne_written (fits : Frame.Fits ⟨nextAfter 0 frames, payload⟩) :
    ∃ t, step hash settings directory (writingOne hash settings headerChecksummed frames payload)
        (.written 0) = some t ∧ t.calls = [⟨payload, .returned (.ok (nextAfter 0 frames))⟩] ∧
      t.onDisk = magicOf headerChecksummed ++
        encodeFrames hash headerChecksummed (frames ++ [⟨nextAfter 0 frames, payload⟩]) := by
  have led := @commitLoop_single hash settings (nextAfter 0 frames)
    (committingOne hash headerChecksummed frames payload) _ fits rfl rfl rfl
  have last : lastPositionIn (encodeFrames hash headerChecksummed [⟨nextAfter 0 frames, payload⟩]) =
      some (nextAfter 0 frames) :=
    lastPositionIn_encodeFrames [⟨nextAfter 0 frames, payload⟩] (by simpa using fits)
  simp only [writingOne, led, step, getElem?_cons_zero]
  refine ⟨_, rfl, ?_, ?_⟩
  · simp [State.moved, afterWrite, synced, committingOne, last]
  · simp only [State.moved, State.onDisk, committingOne, reopened, encodeFrames_append]
    refine (@Disk.read_write ⟨[_], 0⟩ 0 _ _ (by simp)).trans ?_
    exact (writeAt_length _ _).trans (append_assoc _ _ _)

/-- One append to a reopened log, with nobody else there, returns the next position and
leaves its frame behind those the log had. -/
theorem append_alone (room : nextAfter 0 frames + 1 < 2 ^ 64) (fits : payload.length < 2 ^ 32) :
    ∃ t, exec (step hash settings directory) (reopened hash headerChecksummed frames)
        (alone settings payload) = some t ∧ t.calls = [⟨payload, .returned (.ok (nextAfter 0 frames))⟩] ∧
      t.onDisk = magicOf headerChecksummed ++
        encodeFrames hash headerChecksummed (frames ++ [⟨nextAfter 0 frames, payload⟩]) := by
  obtain ⟨t, written, calls, disk⟩ := @writingOne_written hash settings directory headerChecksummed
    frames payload ⟨Nat.lt_of_succ_lt room, fits⟩
  refine ⟨t, ?_, calls, disk⟩
  by_cases eager : settings.linger = 0
  · have entered : step hash settings directory (reopened hash headerChecksummed frames)
        (.append payload) = some (writingOne hash settings headerChecksummed frames payload) := by
      simp only [step, append_committingOne room, if_pos eager]
      rfl
    simp only [alone, if_pos eager, exec, entered, Option.bind_some, written]
  · have entered : step hash settings directory (reopened hash headerChecksummed frames)
        (.append payload) = some { reopened hash headerChecksummed frames with
          shared := committingOne hash headerChecksummed frames payload
          calls := [⟨payload, .lingering (nextAfter 0 frames)⟩] } := by
      simp only [step, append_committingOne room, if_neg eager]
      rfl
    have lingered : step hash settings directory { reopened hash headerChecksummed frames with
          shared := committingOne hash headerChecksummed frames payload
          calls := [⟨payload, .lingering (nextAfter 0 frames)⟩] } (.lingered 0) =
        some (writingOne hash settings headerChecksummed frames payload) := rfl
    simp only [alone, if_neg eager, exec, entered, lingered, Option.bind_some, written]

/-- One above the highest position, and zero where there is no frame. -/
def IsNextPosition (frames : List Frame) (next : Nat) : Prop :=
  (∀ f ∈ frames, f.position < next) ∧ (frames = [] → next = 0) ∧
    (frames ≠ [] → ∃ f ∈ frames, next = f.position + 1)

theorem nextAfter_append (next : Nat) (frames : List Frame) (f : Frame) :
    nextAfter next (frames ++ [f]) = max (nextAfter next frames) (f.position + 1) := by
  simp [nextAfter, foldl_append]

theorem isNextPosition_nextAfter (frames : List Frame) : IsNextPosition frames (nextAfter 0 frames) := by
  induction frames using List.reverseRecOn with
  | nil => exact ⟨by simp, fun _ => rfl, fun some => absurd rfl some⟩
  | append_singleton frames f ih =>
    obtain ⟨below, none, highest⟩ := ih
    rw [nextAfter_append]
    refine ⟨fun g inside => ?_, by simp, fun _ => ?_⟩
    · rcases mem_append.mp inside with before | last
      · exact (below g before).trans_le (le_max_left _ _)
      · rw [mem_singleton.mp last]
        omega
    · rcases Nat.le_total (nextAfter 0 frames) (f.position + 1) with small | large
      · exact ⟨f, by simp, by omega⟩
      · by_cases first : frames = []
        · rw [none first] at large
          omega
        · obtain ⟨g, inside, top⟩ := highest first
          exact ⟨g, mem_append_left _ inside, by omega⟩

theorem recover_before_next {bytes : Bytes} {r : Recovered} {acknowledged : Option Nat}
    (read : recover hash path (some bytes) none = .ok r) (long : walMagic.length ≤ bytes.length)
    (kept : ∀ through, acknowledged = some through → through < r.nextPosition) :
    recover hash path (some bytes) acknowledged = .ok r := by
  cases acknowledged with
  | none => exact read
  | some through =>
    have none : acceptedBeyond hash bytes r.headerChecksummed r.durableBytes r.nextPosition
        through = none := by
      refine acceptedBeyond_eq_none.mpr fun offset position stop _ _ wanted => ?_
      have := kept through rfl
      omega
    rw [recover_beyond read long, none]
    simp

/-- What recovery and a restart make of a log cut off at a byte: `k` frames lie wholly before
the cut. -/
structure CutRead (hash : Bytes → UInt64) (path : String) (headerChecksummed : Bool)
    (frames : List Frame) (cut k : Nat) (acknowledged : Option Nat) (next : Nat) : Prop where
  recovered : recover hash path (some ((magicOf headerChecksummed ++
    encodeFrames hash headerChecksummed frames).take cut)) acknowledged =
      .ok ⟨frames.take k, (magicOf headerChecksummed ++
        encodeFrames hash headerChecksummed (frames.take k)).length, next, headerChecksummed⟩
  appended : ∃ s version, openAcknowledged hash path (some ((magicOf headerChecksummed ++
      encodeFrames hash headerChecksummed frames).take cut)) acknowledged = .ok s ∧
    s.onDisk = magicOf version ++ encodeFrames hash version (frames.take k) ∧
    version = (k = 0 || headerChecksummed) ∧
    ∀ (settings : GroupCommit) (directory : String) (payload : Bytes),
      payload.length < 2 ^ 32 → next + 1 < 2 ^ 64 →
      ∃ t, exec (step hash settings directory) s (alone settings payload) = some t ∧
        t.calls = [⟨payload, .returned (.ok next)⟩] ∧
        ∀ acknowledged', recover hash path (some t.onDisk) acknowledged' =
          .ok ⟨frames.take k ++ [⟨next, payload⟩], t.onDisk.length, next + 1, version⟩

/-- A log cut off at any byte behind its magic reads back as exactly the frames wholly before
the cut, opens as those, and keeps them under the next append. -/
theorem cut_log_reads_whole_frames (hash : Bytes → UInt64) (path : String)
    (headerChecksummed : Bool) (frames : List Frame)
    (written : ∀ f ∈ frames, f.position + 1 < 2 ^ 64 ∧ f.payload.length < 2 ^ 32) {cut : Nat}
    (behind : walMagic.length ≤ cut) : ∃ k next, k ≤ frames.length ∧ (magicOf headerChecksummed ++
        encodeFrames hash headerChecksummed (frames.take k)).length ≤ cut ∧
      (k < frames.length → cut < (magicOf headerChecksummed ++
        encodeFrames hash headerChecksummed (frames.take (k + 1))).length) ∧ IsNextPosition (frames.take k) next ∧
      ∀ acknowledged, (∀ through, acknowledged = some through → through < next) →
        CutRead hash path headerChecksummed frames cut k acknowledged next := by
  have fits : ∀ f ∈ frames, f.Fits := fun f inside =>
    ⟨Nat.lt_of_succ_lt (written f inside).1, (written f inside).2⟩
  obtain ⟨k, small, whole, stops⟩ := @exists_whole hash headerChecksummed
    (magicOf headerChecksummed) frames cut (by simpa using behind)
  refine ⟨k, nextAfter 0 (frames.take k), small, whole, stops, isNextPosition_nextAfter _,
    fun acknowledged kept => ?_⟩
  set log := magicOf headerChecksummed ++ encodeFrames hash headerChecksummed frames with isLog
  have long : walMagic.length ≤ (log.take cut).length := by
    rw [List.length_take, isLog, List.length_append, length_magicOf]
    omega
  have read := recover_before_next (recover_cut hash path headerChecksummed frames fits whole stops)
    long kept
  have laid : (log.take cut).take (magicOf headerChecksummed ++
        encodeFrames hash headerChecksummed (frames.take k)).length =
      magicOf headerChecksummed ++ encodeFrames hash headerChecksummed (frames.take k) := by
    have parts : log = (magicOf headerChecksummed ++
        encodeFrames hash headerChecksummed (frames.take k)) ++
          encodeFrames hash headerChecksummed (frames.drop k) := by
      rw [isLog, List.append_assoc, ← encodeFrames_append, List.take_append_drop]
    rw [List.take_take, Nat.min_eq_left whole, parts, List.take_left]
  have fitsKept : ∀ f ∈ frames.take k, f.Fits := fun f inside => fits f (List.mem_of_mem_take inside)
  have version : (decide (frames.take k = []) || headerChecksummed) =
      (decide (k = 0) || headerChecksummed) := by
    by_cases none : k = 0
    · simp [none]
    · have some : frames ≠ [] := by
        rintro rfl
        simp at small
        exact none small
      simp [none, some]
  refine ⟨read, _, _, openAcknowledged_reopened read laid rfl, rfl, version,
    fun settings directory payload short room => ?_⟩
  obtain ⟨t, ran, answered, disk⟩ := @append_alone hash settings directory
    (decide (frames.take k = []) || headerChecksummed) (frames.take k) payload room short
  refine ⟨t, ran, answered, fun acknowledged' => ?_⟩
  have fitsMore : ∀ f ∈ frames.take k ++ [⟨nextAfter 0 (frames.take k), payload⟩], f.Fits := by
    intro f inside
    rcases List.mem_append.mp inside with before | last
    · exact fitsKept f before
    · rw [List.mem_singleton.mp last]
      exact ⟨Nat.lt_of_succ_lt room, short⟩
  have whole' := recover_whole hash path (decide (frames.take k = []) || headerChecksummed) _ fitsMore
  rw [nextAfter_append, Nat.max_eq_right (by dsimp only; omega), ← disk] at whole'
  exact recover_acknowledged whole' rfl acknowledged'

end

section
open Xxh3

/-- A version 1 log with two frames, cut in the header of the second. -/
theorem cut_log_reads_first_frame : ∃ k next, k ≤ twoWaiting.length ∧
      (magicOf false ++ encodeFrames xxh3 false (twoWaiting.take k)).length ≤ 40 ∧ (k < twoWaiting.length →
        40 < (magicOf false ++ encodeFrames xxh3 false (twoWaiting.take (k + 1))).length) ∧
      IsNextPosition (twoWaiting.take k) next ∧
      ∀ acknowledged, (∀ through, acknowledged = some through → through < next) →
        CutRead xxh3 logPath false twoWaiting 40 k acknowledged next :=
  cut_log_reads_whole_frames xxh3 logPath false twoWaiting (by decide) (by decide)

end
end TallyOwl.Wal
