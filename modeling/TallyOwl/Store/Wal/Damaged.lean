import TallyOwl.Store.Wal.Torn

/-! Damage in the middle of a version 2 log, opened by a store that knows how far it has
acknowledged. The search behind the complete part looks for a frame at every byte, so it
finds every frame that is there, and whatever else reads back as one. -/
namespace TallyOwl.Wal
open Lib Format List

section
variable {hash : Bytes → UInt64} {path : String} {before later : List Frame} {f : Frame}
  {damage : Bytes} {through : Nat}

def damagedLog (hash : Bytes → UInt64) (before : List Frame) (damage : Bytes)
    (later : List Frame) : Bytes :=
  magicOf true ++ (encodeFrames hash true before ++ (damage ++ encodeFrames hash true later))

def damagedFrom (hash : Bytes → UInt64) (before : List Frame) : Nat :=
  (magicOf true ++ encodeFrames hash true before).length

/-- The bytes of `f` were changed in place, so that no frame reads back where it starts. -/
structure Damages (hash : Bytes → UInt64) (before : List Frame) (f : Frame) (damage : Bytes)
    (later : List Frame) : Prop where
  fits : ∀ g ∈ before ++ f :: later, g.Fits
  rising : (before ++ f :: later).Pairwise fun g h => g.position < h.position
  inPlace : damage.length = (encodeFrame hash f.position f.payload true).length
  broken : frameAt hash (damagedLog hash before damage later) (damagedFrom hash before) true = none

/-- What a path names after an open: an open that recovery refuses has not touched it. -/
def fileAfterOpen (file : Option Bytes) : Except WalError State → Option Bytes
  | .error _ => file
  | .ok s => some s.onDisk

def RefusesToOpen (hash : Bytes → UInt64) (path : String) (log : Bytes) (through : Nat) : Prop :=
  ∃ message, openAcknowledged hash path (some log) (some through) = .error (.damaged message) ∧
    fileAfterOpen (some log) (openAcknowledged hash path (some log) (some through)) = some log

def OpensWith (hash : Bytes → UInt64) (path : String) (log : Bytes) (through : Nat)
    (frames : List Frame) : Prop :=
  ∃ s, openAcknowledged hash path (some log) (some through) = .ok s ∧
    s.onDisk = magicOf true ++ encodeFrames hash true frames ∧
    s.shared.nextPosition = nextAfter 0 frames

/-- Some bytes behind the start of the damage read back as a frame that was acknowledged. -/
def ReadsAcknowledged (hash : Bytes → UInt64) (before : List Frame) (damage : Bytes)
    (later : List Frame) (through : Nat) : Prop :=
  ∃ offset position stop, damagedFrom hash before < offset ∧
    frameAt hash (damagedLog hash before damage later) offset true = some (position, stop) ∧
    nextAfter 0 before ≤ position ∧ position ≤ through

variable (damages : Damages hash before f damage later)
include damages

theorem Damages.recovers :
    recover hash path (some (damagedLog hash before damage later)) none =
      .ok ⟨before, damagedFrom hash before, nextAfter 0 before, true⟩ :=
  recover_stops hash path true before (fun g inside => damages.fits g (by simp [inside])) _
    damages.broken

theorem Damages.shorter :
    damagedFrom hash before < (damagedLog hash before damage later).length := by
  have size := damages.inPlace
  simp only [length_encodeFrame, frameHeaderBytes] at size
  simp only [damagedFrom, damagedLog, length_append]
  omega

theorem Damages.refused
    (reads : ReadsAcknowledged hash before damage later through) :
    RefusesToOpen hash path (damagedLog hash before damage later) through := by
  have long : walMagic.length ≤ (damagedLog hash before damage later).length := by
    simp [damagedLog]
  cases found : acceptedBeyond hash (damagedLog hash before damage later) true
      (damagedFrom hash before) (nextAfter 0 before) through with
  | none =>
    obtain ⟨offset, position, stop, behind, there, wanted⟩ := reads
    exact absurd wanted (acceptedBeyond_eq_none.mp found offset position stop behind there)
  | some position =>
    have read := @recover_beyond hash path _ _ through damages.recovers long
    simp only [found, if_pos damages.shorter, Option.map_some, Option.getD_some] at read
    have refused : openAcknowledged hash path (some (damagedLog hash before damage later))
        (some through) = .error (.damaged
          (damagedInTheMiddle path (damagedFrom hash before) position)) := by
      simp only [openAcknowledged, read, bind, Except.bind]
    exact ⟨_, refused, by rw [refused]; rfl⟩

theorem Damages.opens
    (none : ¬ ReadsAcknowledged hash before damage later through) :
    OpensWith hash path (damagedLog hash before damage later) through before := by
  have long : walMagic.length ≤ (damagedLog hash before damage later).length := by
    simp [damagedLog]
  have nothing : acceptedBeyond hash (damagedLog hash before damage later) true
      (damagedFrom hash before) (nextAfter 0 before) through = Option.none :=
    acceptedBeyond_eq_none.mpr fun offset position stop behind there wanted =>
      none ⟨offset, position, stop, behind, there, wanted⟩
  have read := @recover_beyond hash path _ _ through damages.recovers long
  simp only [nothing, Option.map_none, Option.getD_none, ite_self] at read
  have laid : (damagedLog hash before damage later).take (damagedFrom hash before) =
      magicOf true ++ encodeFrames hash true before := by
    rw [damagedLog, ← append_assoc, damagedFrom, take_left]
  refine ⟨_, openAcknowledged_reopened read laid rfl, ?_, rfl⟩
  rw [Bool.or_true]
  rfl

omit damages

theorem nextAfter_le {frames : List Frame} {bound : Nat} (below : ∀ f ∈ frames, f.position < bound) :
    nextAfter 0 frames ≤ bound := by
  obtain ⟨-, none, highest⟩ := isNextPosition_nextAfter frames
  by_cases empty : frames = []
  · rw [none empty]
    exact Nat.zero_le _
  · obtain ⟨f, inside, top⟩ := highest empty
    rw [top]
    exact below f inside

theorem Damages.readsAcknowledged (damages : Damages hash before f damage later) {g : Frame}
    (inside : g ∈ later) (acknowledged : g.position ≤ through) :
    ReadsAcknowledged hash before damage later through := by
  have above : ∀ h ∈ before, h.position < g.position := fun h earlier =>
    (pairwise_append.mp damages.rising).2.2 h earlier g (mem_cons_of_mem _ inside)
  have size := damages.inPlace
  obtain ⟨between, rest, rfl⟩ := append_of_mem inside
  have there := @frameAt_frame hash true g (magicOf true ++ (encodeFrames hash true before ++
    (damage ++ encodeFrames hash true between))) (encodeFrames hash true rest)
    (damages.fits g (by simp))
  have parts : damagedLog hash before damage (between ++ g :: rest) =
      (magicOf true ++ (encodeFrames hash true before ++ (damage ++ encodeFrames hash true between))) ++
        (encodeFrame hash g.position g.payload true ++ encodeFrames hash true rest) := by
    simp only [damagedLog, encodeFrames_append, encodeFrames_cons, append_assoc]
  rw [← parts] at there
  refine ⟨_, _, _, ?_, there, nextAfter_le above, acknowledged⟩
  simp only [length_encodeFrame, frameHeaderBytes] at size
  simp only [damagedFrom, length_append]
  omega

/-- Damage is found by the acknowledged frames behind it, and by nothing else than bytes
that read back as one: the open refuses and leaves the file, or cuts it at the damage. -/
theorem damage_refused_or_cut (path : String) (through : Nat) (damages : Damages hash before f damage later) :
    ((∃ g ∈ later, g.position ≤ through) → RefusesToOpen hash path (damagedLog hash before damage later) through) ∧
    ((∀ g ∈ later, through < g.position) → (¬ ReadsAcknowledged hash before damage later through →
        OpensWith hash path (damagedLog hash before damage later) through before) ∧
      (ReadsAcknowledged hash before damage later through →
        RefusesToOpen hash path (damagedLog hash before damage later) through)) := by
  refine ⟨?_, fun _ => ⟨damages.opens, damages.refused⟩⟩
  rintro ⟨g, inside, acknowledged⟩
  exact damages.refused (damages.readsAcknowledged inside acknowledged)

end

section
open Xxh3

theorem first_damages : Damages xxh3 [] ⟨0, [1]⟩ ((encodeFrame xxh3 0 [1] true).modify 4 (· ^^^ 1)) [⟨1, [2]⟩] :=
  ⟨twoWaiting_fits, by decide, by decide +kernel, by decide +kernel⟩

theorem damage_refused_or_cut_first : RefusesToOpen xxh3 logPath (damagedLog xxh3 []
      ((encodeFrame xxh3 0 [1] true).modify 4 (· ^^^ 1)) [⟨1, [2]⟩]) 1 :=
  (damage_refused_or_cut logPath 1 first_damages).1 ⟨⟨1, [2]⟩, by simp, by decide⟩

/-- A frame whose payload is the image of another frame at position 0. -/
def imaged : Frame := ⟨0, encodeFrame xxh3 0 [] true⟩

def imagedDamage : Bytes := (encodeFrame xxh3 0 imaged.payload true).modify 12 (· ^^^ 1)

theorem imaged_damages : Damages xxh3 [] imaged imagedDamage [] := by
  refine ⟨fun g inside => ?_, by simp, ?_, by decide +kernel⟩
  · rw [nil_append, mem_singleton] at inside
    subst inside
    exact ⟨by decide, by decide +kernel⟩
  · simp [imagedDamage, imaged]

/-- One frame was damaged, no other was written, and the log does not open: the image in
its payload is taken for an acknowledged frame. -/
theorem image_refuses_to_open : Damages xxh3 [] imaged imagedDamage [] ∧ (∀ g ∈ ([] : List Frame), 0 < g.position) ∧
      ¬ OpensWith xxh3 logPath (damagedLog xxh3 [] imagedDamage []) 0 [] := by
  refine ⟨imaged_damages, by simp, ?_⟩
  rintro ⟨s, opened, -, -⟩
  have refused : (openAcknowledged xxh3 logPath (some (damagedLog xxh3 [] imagedDamage []))
      (some 0)).toOption = none := by decide +kernel
  rw [opened] at refused
  cases refused

end
end TallyOwl.Wal
