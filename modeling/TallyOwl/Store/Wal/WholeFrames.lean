import TallyOwl.Store.Wal.Frame

/-! Byte ranges made of whole frames. Each walk of the log is computed here over
`encodeFrames`, once, so that the machine above never looks inside a frame. -/
namespace TallyOwl.Wal
open Lib Format List

def Frame.Fits (f : Frame) : Prop := f.position < 2 ^ 64 ∧ f.payload.length < 2 ^ 32

section
variable (hash : Bytes → UInt64) (headerChecksummed : Bool)

def encodeFrames (frames : List Frame) : Bytes :=
  frames.flatMap fun f => encodeFrame hash f.position f.payload headerChecksummed

@[simp] theorem encodeFrames_nil : encodeFrames hash headerChecksummed [] = [] := rfl

theorem encodeFrames_cons (f : Frame) (frames : List Frame) :
    encodeFrames hash headerChecksummed (f :: frames) =
      encodeFrame hash f.position f.payload headerChecksummed ++
        encodeFrames hash headerChecksummed frames := rfl

theorem encodeFrames_append (xs ys : List Frame) : encodeFrames hash headerChecksummed (xs ++ ys) =
      encodeFrames hash headerChecksummed xs ++ encodeFrames hash headerChecksummed ys := by
  simp [encodeFrames]

@[simp] theorem length_encodeFrame (position : Nat) (payload : Bytes) :
    (encodeFrame hash position payload headerChecksummed).length = frameHeaderBytes + payload.length := by
  simp only [encodeFrame, length_append, length_putU32, length_putU64, frameHeaderBytes]
  omega

theorem length_le_encodeFrames (frames : List Frame) :
    frames.length ≤ (encodeFrames hash headerChecksummed frames).length := by
  induction frames with
  | nil => simp
  | cons f frames ih =>
    rw [encodeFrames_cons, length_append, length_encodeFrame, length_cons]
    simp only [frameHeaderBytes]
    omega

theorem encodeFrames_eq_nil {frames : List Frame} : encodeFrames hash headerChecksummed frames = [] ↔ frames = [] := by
  constructor
  · intro empty
    have bound := length_le_encodeFrames hash headerChecksummed frames
    rw [empty] at bound
    exact length_eq_zero_iff.mp (by simpa using bound)
  · rintro rfl
    rfl

variable {hash headerChecksummed} {f : Frame} (before after : Bytes)

theorem getU32_frame (fits : f.Fits) :
    getU32 (before ++ (encodeFrame hash f.position f.payload headerChecksummed ++ after))
      before.length = .ok f.payload.length := by
  simp only [encodeFrame, append_assoc]
  exact getU32_append _ _ _ fits.2

theorem getU64_frame_position (fits : f.Fits) :
    getU64 (before ++ (encodeFrame hash f.position f.payload headerChecksummed ++ after))
      (before.length + 4) = .ok f.position := by
  have found := getU64_append (before ++ putU32 f.payload.length)
    (putU64 (frameChecksum hash f.payload.length f.position f.payload headerChecksummed).toNat ++
      (f.payload ++ after)) f.position fits.1
  simpa [encodeFrame, append_assoc] using found

theorem getU64_frame_checksum : getU64 (before ++ (encodeFrame hash f.position f.payload headerChecksummed ++ after))
      (before.length + 12) =
        .ok (frameChecksum hash f.payload.length f.position f.payload headerChecksummed).toNat := by
  have found := getU64_append (before ++ putU32 f.payload.length ++ putU64 f.position)
    (f.payload ++ after)
    (frameChecksum hash f.payload.length f.position f.payload headerChecksummed).toNat
    (UInt64.toNat_lt _)
  simpa [encodeFrame, append_assoc, Nat.add_assoc] using found

theorem window_frame_payload : window (before ++ (encodeFrame hash f.position f.payload headerChecksummed ++ after))
      (before.length + frameHeaderBytes) f.payload.length = some f.payload := by
  have found := window_append (before ++ putU32 f.payload.length ++ putU64 f.position ++
    putU64 (frameChecksum hash f.payload.length f.position f.payload headerChecksummed).toNat)
    f.payload after
  simpa [encodeFrame, append_assoc, Nat.add_assoc, frameHeaderBytes] using found

theorem drop_take_frame_payload : ((before ++ (encodeFrame hash f.position f.payload headerChecksummed ++ after)).drop
      (before.length + frameHeaderBytes)).take f.payload.length = f.payload := by
  have found := @window_frame_payload hash headerChecksummed f before after
  unfold window at found
  split at found
  · exact Option.some.inj found
  · cases found

theorem frameAt_frame (fits : f.Fits) :
    frameAt hash (before ++ (encodeFrame hash f.position f.payload headerChecksummed ++ after))
      before.length headerChecksummed = some (f.position, before.length + frameHeaderBytes + f.payload.length) := by
  simp only [frameAt, getU32_frame before after fits, getU64_frame_position before after fits,
    getU64_frame_checksum before after, window_frame_payload before after, if_true]

theorem next_frame : before.length + frameHeaderBytes + f.payload.length =
      (before ++ encodeFrame hash f.position f.payload headerChecksummed).length := by
  rw [length_append, length_encodeFrame]
  omega

theorem frame_inside (frames : List Frame) : ¬ before.length + frameHeaderBytes + f.payload.length >
      (before ++ (encodeFrame hash f.position f.payload headerChecksummed ++
        encodeFrames hash headerChecksummed frames)).length := by
  simp only [length_append, length_encodeFrame]
  omega

theorem framesFrom_encodeFrames (frames : List Frame) (fits : ∀ f ∈ frames, f.Fits) (fuel : Nat)
    (enough : frames.length ≤ fuel) :
    framesFrom (before ++ encodeFrames hash headerChecksummed frames) fuel before.length = frames.length := by
  induction frames generalizing before fuel with
  | nil =>
    cases fuel with
    | zero => rfl
    | succ fuel => simp [framesFrom, getU32_past_end]
  | cons f frames ih =>
    cases fuel with
    | zero => simp at enough
    | succ fuel =>
      have rest := ih (before ++ encodeFrame hash f.position f.payload headerChecksummed)
        (fun g hg => fits g (by simp [hg])) fuel (by simpa using enough)
      rw [append_assoc, ← next_frame before] at rest
      rw [framesFrom, encodeFrames_cons]
      simp only [getU32_frame before _ (fits f (by simp)), if_neg (frame_inside before frames),
        length_cons, rest]

theorem lastPositionFrom_encodeFrames (frames : List Frame) (fits : ∀ f ∈ frames, f.Fits)
    (fuel : Nat) (enough : frames.length ≤ fuel) (last : Option Nat) :
    lastPositionFrom (before ++ encodeFrames hash headerChecksummed frames) fuel before.length last =
      (frames.getLast?.map Frame.position).or last := by
  induction frames generalizing before fuel last with
  | nil =>
    cases fuel with
    | zero => simp [lastPositionFrom]
    | succ fuel => simp [lastPositionFrom, getU32_past_end]
  | cons f frames ih =>
    cases fuel with
    | zero => simp at enough
    | succ fuel =>
      have rest := ih (before ++ encodeFrame hash f.position f.payload headerChecksummed)
        (fun g hg => fits g (by simp [hg])) fuel (by simpa using enough) (some f.position)
      have here := fits f (by simp)
      rw [append_assoc, ← next_frame before] at rest
      rw [lastPositionFrom, encodeFrames_cons]
      simp only [getU32_frame before _ here, getU64_frame_position before _ here,
        if_neg (frame_inside before frames), rest]
      cases tail : frames.getLast? <;> simp [getLast?_cons, tail]

theorem lastPositionIn_encodeFrames (frames : List Frame) (fits : ∀ f ∈ frames, f.Fits) :
    lastPositionIn (encodeFrames hash headerChecksummed frames) = frames.getLast?.map Frame.position := by
  have found := @lastPositionFrom_encodeFrames hash headerChecksummed [] frames fits _
    (length_le_encodeFrames hash headerChecksummed frames) none
  simpa [lastPositionIn] using found

/-- The walk stops on a frame boundary, past the first frame when there is one. It stays
within the limit unless that frame alone is beyond it, and the next one is beyond it. -/
theorem frameBoundaryFrom_encodeFrames (limit : Nat) (done frames : List Frame)
    (fits : ∀ f ∈ frames, f.Fits) (fuel : Nat) (enough : frames.length < fuel)
    (within : done = [] ∨ (encodeFrames hash headerChecksummed done).length ≤ limit) :
    ∃ k, k ≤ frames.length ∧ (done = [] → frames ≠ [] → 0 < k) ∧
      frameBoundaryFrom (encodeFrames hash headerChecksummed (done ++ frames)) limit fuel
        (encodeFrames hash headerChecksummed done).length =
          (encodeFrames hash headerChecksummed (done ++ frames.take k)).length ∧ (done = [] ∧ k ≤ 1 ∨
        (encodeFrames hash headerChecksummed (done ++ frames.take k)).length ≤ limit) ∧ (k < frames.length →
        limit < (encodeFrames hash headerChecksummed (done ++ frames.take (k + 1))).length) := by
  induction frames generalizing done fuel with
  | nil =>
    refine ⟨0, le_refl _, fun _ h => absurd rfl h, ?_, ?_, by simp⟩
    · cases fuel with
      | zero => simp at enough
      | succ fuel => simp [frameBoundaryFrom, getU32_past_end]
    · rcases within with first | inside
      · exact .inl ⟨first, by omega⟩
      · exact .inr (by simpa using inside)
  | cons f frames ih =>
    cases fuel with
    | zero => simp at enough
    | succ fuel =>
      have next : (encodeFrames hash headerChecksummed (done ++ [f])).length =
          (encodeFrames hash headerChecksummed done).length + frameHeaderBytes +
            f.payload.length := by
        simp only [encodeFrames_append, encodeFrames_cons, encodeFrames_nil, append_nil,
          length_append, length_encodeFrame]
        omega
      have here := @getU32_frame hash headerChecksummed f
        (encodeFrames hash headerChecksummed done)
        (encodeFrames hash headerChecksummed frames) (fits f (by simp))
      rw [← encodeFrames_cons, ← encodeFrames_append] at here
      have inside : (encodeFrames hash headerChecksummed (done ++ [f])).length ≤
          (encodeFrames hash headerChecksummed (done ++ f :: frames)).length := by
        rw [append_cons done f frames, encodeFrames_append _ _ (done ++ [f]),
          length_append]
        omega
      rw [frameBoundaryFrom]
      simp only [here]
      split
      · rename_i stops
        have beyond : limit < (encodeFrames hash headerChecksummed (done ++ [f])).length := by
          omega
        by_cases first : done = []
        · refine ⟨1, by simp, fun _ _ => by omega, ?_, .inl ⟨first, le_refl _⟩, fun more => ?_⟩
          · subst first
            simp only [encodeFrames_nil, length_nil, if_true, Nat.zero_add, nil_append,
              take_succ_cons, take_zero, encodeFrames_cons, append_nil,
              length_append, length_encodeFrame]
            omega
          · rw [take_succ_cons, append_cons done f (frames.take 1),
              encodeFrames_append _ _ (done ++ [f]), length_append]
            omega
        · refine ⟨0, by omega, fun h => absurd h first, ?_, .inr ?_, fun _ => ?_⟩
          · have positive : (encodeFrames hash headerChecksummed done).length ≠ 0 := by
              intro zero
              exact first ((encodeFrames_eq_nil _ _).mp (length_eq_zero_iff.mp zero))
            rw [if_neg positive]
            simp
          · simpa [first] using within
          · simpa using beyond
      · rename_i goes
        obtain ⟨k, bound, -, rest, stays, stops⟩ := ih (done ++ [f])
          (fun g hg => fits g (by simp [hg])) fuel (by simpa using enough)
          (.inr (by rw [next]; omega))
        rw [next] at rest
        refine ⟨k + 1, by simpa using bound, fun _ _ => by omega, ?_, .inr ?_, fun more => ?_⟩
        · simpa [append_assoc] using rest
        · simpa [append_assoc] using stays
        · simpa [append_assoc] using stops (by simpa using more)

theorem frameBoundaryBefore_encodeFrames (limit : Nat) (frames : List Frame) (fits : ∀ f ∈ frames, f.Fits) :
    ∃ k, k ≤ frames.length ∧ (frames ≠ [] → 0 < k) ∧
      frameBoundaryBefore (encodeFrames hash headerChecksummed frames) limit =
        (encodeFrames hash headerChecksummed (frames.take k)).length ∧
      (k ≤ 1 ∨ (encodeFrames hash headerChecksummed (frames.take k)).length ≤ limit) ∧ (k < frames.length →
        limit < (encodeFrames hash headerChecksummed (frames.take (k + 1))).length) := by
  have bound := length_le_encodeFrames hash headerChecksummed frames
  obtain ⟨k, small, positive, found, stays, stops⟩ := @frameBoundaryFrom_encodeFrames hash
    headerChecksummed limit [] frames fits ((encodeFrames hash headerChecksummed frames).length + 1)
    (by omega) (.inl rfl)
  exact ⟨k, small, positive rfl, by simpa [frameBoundaryBefore] using found,
    by simpa using stays, by simpa using stops⟩

theorem keepFrom_encodeFrames (through : Nat) (frames : List Frame)
    (fits : ∀ f ∈ frames, f.Fits) (fuel : Nat) (enough : frames.length ≤ fuel) :
    keepFrom (before ++ encodeFrames hash headerChecksummed frames) through fuel before.length =
      .ok (before ++ encodeFrames hash headerChecksummed (frames.takeWhile fun f => f.position ≤ through)).length := by
  induction frames generalizing before fuel with
  | nil => cases fuel <;> simp [keepFrom]
  | cons f frames ih =>
    cases fuel with
    | zero => simp at enough
    | succ fuel =>
      have rest := ih (before ++ encodeFrame hash f.position f.payload headerChecksummed)
        (fun g hg => fits g (by simp [hg])) fuel (by simpa using enough)
      have here := fits f (by simp)
      have more : before.length < (before ++ (encodeFrame hash f.position f.payload
          headerChecksummed ++ encodeFrames hash headerChecksummed frames)).length := by
        simp only [length_append, length_encodeFrame, frameHeaderBytes]
        omega
      rw [append_assoc, ← next_frame before] at rest
      rw [keepFrom, encodeFrames_cons]
      simp only [if_pos more, getU32_frame before _ here, getU64_frame_position before _ here,
        if_neg (frame_inside before frames), rest]
      by_cases kept : f.position ≤ through
      · simp [kept, encodeFrames_cons, Nat.not_lt.mpr kept, append_assoc]
      · simp [kept, Nat.not_le.mp kept]

theorem reencodeFrom_encodeFrames (frames : List Frame) (fits : ∀ f ∈ frames, f.Fits) (fuel : Nat)
    (enough : frames.length ≤ fuel) :
    reencodeFrom hash (before ++ encodeFrames hash headerChecksummed frames) fuel before.length =
      .ok (encodeFrames hash true frames) := by
  induction frames generalizing before fuel with
  | nil => cases fuel <;> simp [reencodeFrom]
  | cons f frames ih =>
    cases fuel with
    | zero => simp at enough
    | succ fuel =>
      have rest := ih (before ++ encodeFrame hash f.position f.payload headerChecksummed)
        (fun g hg => fits g (by simp [hg])) fuel (by simpa using enough)
      have here := fits f (by simp)
      have more : before.length < (before ++ (encodeFrame hash f.position f.payload
          headerChecksummed ++ encodeFrames hash headerChecksummed frames)).length := by
        simp only [length_append, length_encodeFrame, frameHeaderBytes]
        omega
      rw [append_assoc, ← next_frame before] at rest
      rw [reencodeFrom, encodeFrames_cons]
      simp only [if_pos more, getU32_frame before _ here, getU64_frame_position before _ here,
        if_neg (frame_inside before frames), rest, drop_take_frame_payload before]
      rfl

theorem reencode_encodeFrames (frames : List Frame) (fits : ∀ f ∈ frames, f.Fits) :
    reencode hash (encodeFrames hash headerChecksummed frames) = .ok (encodeFrames hash true frames) :=
  reencodeFrom_encodeFrames [] frames fits _ (length_le_encodeFrames _ _ _)

/-- One past the highest position, starting from `next`. -/
def nextAfter (next : Nat) (frames : List Frame) : Nat :=
  frames.foldl (fun n f => max n (f.position + 1)) next

theorem scanFrames_encodeFrames (frames : List Frame) (fits : ∀ f ∈ frames, f.Fits) (fuel : Nat)
    (enough : frames.length ≤ fuel) (next : Nat) :
    scanFrames hash (before ++ (encodeFrames hash headerChecksummed frames ++ after))
        headerChecksummed fuel before.length next =
      let rest := scanFrames hash (before ++ (encodeFrames hash headerChecksummed frames ++ after))
        headerChecksummed (fuel - frames.length)
        (before ++ encodeFrames hash headerChecksummed frames).length (nextAfter next frames)
      (frames ++ rest.1, rest.2) := by
  induction frames generalizing before fuel next with
  | nil => simp [nextAfter]
  | cons f frames ih =>
    cases fuel with
    | zero => simp at enough
    | succ fuel =>
      have rest := ih (before ++ encodeFrame hash f.position f.payload headerChecksummed)
        (fun g hg => fits g (by simp [hg])) fuel (by simpa using enough)
        (max next (f.position + 1))
      have here := fits f (by simp)
      have more : before.length < (before ++ (encodeFrame hash f.position f.payload
          headerChecksummed ++ (encodeFrames hash headerChecksummed frames ++ after))).length := by
        simp only [length_append, length_encodeFrame, frameHeaderBytes]
        omega
      rw [append_assoc, ← next_frame before] at rest
      rw [scanFrames, encodeFrames_cons]
      simp only [append_assoc] at rest ⊢
      simp only [if_pos more, frameAt_frame before _ here, rest, length_cons,
        Nat.add_sub_cancel_left, drop_take_frame_payload before]
      simp only [Nat.add_sub_add_right, cons_append, nextAfter, foldl_cons]

end

def magicOf (headerChecksummed : Bool) : Bytes := if headerChecksummed then walMagic else walMagicV1

@[simp] theorem length_magicOf (headerChecksummed : Bool) : (magicOf headerChecksummed).length = walMagic.length := by
  cases headerChecksummed <;> rfl

theorem recover_magic (hash : Bytes → UInt64) (path : String) (headerChecksummed : Bool)
    (body : Bytes) :
    recover hash path (some (magicOf headerChecksummed ++ body)) none =
      let read := scanFrames hash (magicOf headerChecksummed ++ body) headerChecksummed
        (magicOf headerChecksummed ++ body).length walMagic.length 0
      .ok ⟨read.1, read.2.1, read.2.2, headerChecksummed⟩ := by
  have head : (magicOf headerChecksummed ++ body).take walMagic.length =
      magicOf headerChecksummed := by
    rw [take_append_of_le_length (by simp), take_of_length_le (by simp)]
  have long : ¬ (magicOf headerChecksummed ++ body).length < walMagic.length := by simp
  have named : (decide (magicOf headerChecksummed = walMagic)) = headerChecksummed := by
    cases headerChecksummed <;> decide
  have known : magicOf headerChecksummed = walMagic ∨ magicOf headerChecksummed = walMagicV1 := by
    cases headerChecksummed <;> simp [magicOf]
  simp only [recover, if_neg long, head, if_pos known, named]

theorem recover_encodeFrames (hash : Bytes → UInt64) (path : String) (headerChecksummed : Bool)
    (frames : List Frame) (fits : ∀ f ∈ frames, f.Fits) (after : Bytes) : ∃ more complete next,
      recover hash path (some (magicOf headerChecksummed ++
        (encodeFrames hash headerChecksummed frames ++ after))) none =
          .ok ⟨frames ++ more, complete, next, headerChecksummed⟩ := by
  have enough : frames.length ≤ (magicOf headerChecksummed ++
      (encodeFrames hash headerChecksummed frames ++ after)).length := by
    have bound := length_le_encodeFrames hash headerChecksummed frames
    simp only [length_append]
    omega
  have read := @scanFrames_encodeFrames hash headerChecksummed (magicOf headerChecksummed) after
    frames fits _ enough 0
  rw [length_magicOf] at read
  rw [recover_magic, read]
  exact ⟨_, _, _, rfl⟩

theorem scanFrames_stops {hash : Bytes → UInt64} {headerChecksummed : Bool} {bytes : Bytes}
    {start : Nat} (stops : frameAt hash bytes start headerChecksummed = none) (fuel next : Nat) :
    scanFrames hash bytes headerChecksummed fuel start next = ([], start, next) := by
  cases fuel with
  | zero => rfl
  | succ fuel => simp [scanFrames, stops]

theorem recover_stops (hash : Bytes → UInt64) (path : String) (headerChecksummed : Bool)
    (frames : List Frame) (fits : ∀ f ∈ frames, f.Fits) (rest : Bytes)
    (stops : frameAt hash (magicOf headerChecksummed ++ (encodeFrames hash headerChecksummed frames ++ rest))
      (magicOf headerChecksummed ++ encodeFrames hash headerChecksummed frames).length headerChecksummed = none) :
    recover hash path (some (magicOf headerChecksummed ++ (encodeFrames hash headerChecksummed frames ++ rest))) none =
        .ok ⟨frames, (magicOf headerChecksummed ++
          encodeFrames hash headerChecksummed frames).length, nextAfter 0 frames, headerChecksummed⟩ := by
  have enough : frames.length ≤ (magicOf headerChecksummed ++
      (encodeFrames hash headerChecksummed frames ++ rest)).length := by
    have bound := length_le_encodeFrames hash headerChecksummed frames
    simp only [length_append]
    omega
  have read := @scanFrames_encodeFrames hash headerChecksummed (magicOf headerChecksummed) rest
    frames fits _ enough 0
  rw [length_magicOf] at read
  rw [recover_magic, read, scanFrames_stops stops]
  simp

theorem frameAt_past_end (hash : Bytes → UInt64) (headerChecksummed : Bool) (bytes : Bytes) :
    frameAt hash bytes bytes.length headerChecksummed = none := by
  simp [frameAt, getU32_past_end]

theorem recover_whole (hash : Bytes → UInt64) (path : String) (headerChecksummed : Bool)
    (frames : List Frame) (fits : ∀ f ∈ frames, f.Fits) : recover hash path (some (magicOf headerChecksummed ++
      encodeFrames hash headerChecksummed frames)) none = .ok ⟨frames, (magicOf headerChecksummed ++
          encodeFrames hash headerChecksummed frames).length, nextAfter 0 frames, headerChecksummed⟩ := by
  have read := recover_stops hash path headerChecksummed frames fits []
  simp only [append_nil] at read
  exact read (frameAt_past_end _ _ _)

theorem frameAt_sound {hash : Bytes → UInt64} {headerChecksummed : Bool} {bytes : Bytes} {start position stop : Nat}
    (found : frameAt hash bytes start headerChecksummed = some (position, stop)) :
    ∃ f : Frame, f.Fits ∧ f.position = position ∧
      stop = start + frameHeaderBytes + f.payload.length ∧ stop ≤ bytes.length ∧
      (bytes.drop (start + frameHeaderBytes)).take f.payload.length = f.payload ∧ bytes.take stop = bytes.take start ++
        encodeFrame hash f.position f.payload headerChecksummed := by
  unfold frameAt at found
  split at found
  · rename_i length pos sum hl hp hs
    split at found
    · rename_i payload hw
      split at found
      · rename_i checks
        obtain ⟨rfl, rfl⟩ := Prod.mk.inj (Option.some.inj found)
        obtain ⟨small, atLength⟩ := getU32_ok hl
        obtain ⟨inRange, atPosition⟩ := getU64_ok hp
        obtain ⟨-, atChecksum⟩ := getU64_ok hs
        obtain ⟨inside, taken⟩ := window_eq_some.mp hw
        obtain rfl := length_of_window hw
        refine ⟨⟨pos, payload⟩, ⟨inRange, small⟩, rfl, rfl, inside, taken, ?_⟩
        have e₁ := take_of_window atLength
        have e₂ := take_of_window atPosition
        have e₃ := take_of_window atChecksum
        have e₄ := take_of_window hw
        simp only [Nat.add_assoc, Nat.reduceAdd, frameHeaderBytes] at e₁ e₂ e₃ e₄ ⊢
        rw [e₄, e₃, e₂, e₁, encodeFrame, checks]
        simp only [append_assoc]
      · cases found
    · cases found
  · cases found

theorem scanFrames_sound (hash : Bytes → UInt64) (headerChecksummed : Bool) (bytes : Bytes)
    (fuel start next : Nat) (inside : start ≤ bytes.length) :
    let read := scanFrames hash bytes headerChecksummed fuel start next
    (∀ f ∈ read.1, f.Fits) ∧ read.2.1 ≤ bytes.length ∧ read.2.2 = nextAfter next read.1 ∧
      bytes.take read.2.1 = bytes.take start ++ encodeFrames hash headerChecksummed read.1 := by
  induction fuel generalizing start next with
  | zero => simp [scanFrames, inside, nextAfter]
  | succ fuel ih =>
    unfold scanFrames
    split
    · cases found : frameAt hash bytes start headerChecksummed with
      | none => simp [inside, nextAfter]
      | some pair =>
        obtain ⟨position, stop⟩ := pair
        obtain ⟨f, fits, rfl, rfl, stays, payload, taken⟩ := frameAt_sound found
        obtain ⟨allFit, bound, top, rest⟩ := ih _ (max next (f.position + 1)) stays
        simp only [Nat.add_sub_cancel_left, payload]
        refine ⟨?_, bound, by simpa [nextAfter] using top, ?_⟩
        · simpa using ⟨fits, allFit⟩
        · rw [rest, taken, encodeFrames_cons, append_assoc]
    · simp [inside, nextAfter]

theorem recover_sound {hash : Bytes → UInt64} {path : String} {file : Option Bytes}
    {acknowledged : Option Nat} {r : Recovered} (recovered : recover hash path file acknowledged = .ok r) :
    r = nothingRecovered ∨ ∃ bytes, file = some bytes ∧ (∀ f ∈ r.frames, f.Fits) ∧ bytes.take r.durableBytes =
        magicOf r.headerChecksummed ++ encodeFrames hash r.headerChecksummed r.frames ∧
      r.durableBytes ≤ bytes.length := by
  cases file with
  | none => exact .inl (Except.ok.inj recovered).symm
  | some bytes =>
    simp only [recover] at recovered
    by_cases short : bytes.length < walMagic.length
    · rw [if_pos short] at recovered
      exact .inl (Except.ok.inj recovered).symm
    rw [if_neg short] at recovered
    by_cases known : bytes.take walMagic.length = walMagic ∨ bytes.take walMagic.length = walMagicV1
    · rw [if_pos known] at recovered
      have version : bytes.take walMagic.length =
          magicOf (decide (bytes.take walMagic.length = walMagic)) := by
        rcases known with second | first
        · simp [second, magicOf]
        · rw [first]
          decide
      obtain ⟨fits, bound, -, taken⟩ := scanFrames_sound hash
        (decide (bytes.take walMagic.length = walMagic)) bytes bytes.length walMagic.length 0
        (by omega)
      split at recovered
      · cases recovered
      · obtain rfl := (Except.ok.inj recovered).symm
        refine .inr ⟨bytes, rfl, fits, ?_, bound⟩
        rw [taken, ← version]
    · rw [if_neg known] at recovered
      cases recovered

section
variable {hash : Bytes → UInt64} {path : String} {bytes : Bytes} {r : Recovered} {through : Nat}

/-- Asking for what was acknowledged changes the answer only where the search behind the
complete part finds a frame. -/
theorem recover_beyond (read : recover hash path (some bytes) none = .ok r) (long : walMagic.length ≤ bytes.length) :
    recover hash path (some bytes) (some through) = if r.durableBytes < bytes.length then
        ((acceptedBeyond hash bytes r.headerChecksummed r.durableBytes r.nextPosition through).map
          fun position => Except.error (.damaged (damagedInTheMiddle path r.durableBytes position)) ).getD (.ok r)
      else .ok r := by
  unfold recover at read ⊢
  dsimp only at read ⊢
  rw [if_neg (not_lt.mpr long)] at read ⊢
  split at read
  · rename_i known
    rw [if_pos known]
    cases read
    dsimp only
    by_cases more : (scanFrames hash bytes (decide (bytes.take walMagic.length = walMagic))
        bytes.length walMagic.length 0).2.1 < bytes.length
    · simp only [if_pos more]
      cases acceptedBeyond hash bytes (decide (bytes.take walMagic.length = walMagic)) _ _ through with
      | none => rfl
      | some position => rfl
    · simp only [if_neg more]
  · cases read

theorem recover_acknowledged (read : recover hash path (some bytes) none = .ok r)
    (whole : r.durableBytes = bytes.length) (acknowledged : Option Nat) :
    recover hash path (some bytes) acknowledged = .ok r := by
  cases acknowledged with
  | none => exact read
  | some through =>
    rcases Nat.lt_or_ge bytes.length walMagic.length with short | long
    · simp only [recover, if_pos short] at read ⊢
      exact read
    · rw [recover_beyond read long, if_neg (not_lt.mpr whole.ge)]

theorem acceptedBeyond_eq_none {headerChecksummed : Bool} {complete next : Nat} :
    acceptedBeyond hash bytes headerChecksummed complete next through = none ↔
      ∀ offset position stop, complete < offset → frameAt hash bytes offset headerChecksummed = some (position, stop) →
          ¬ (next ≤ position ∧ position ≤ through) := by
  have reads : ∀ offset position stop,
      frameAt hash bytes offset headerChecksummed = some (position, stop) →
        getU64 bytes (offset + 4) = .ok position ∧ offset < bytes.length := by
    intro offset position stop found
    obtain ⟨f, -, -, stays, inside, -, -⟩ := frameAt_sound found
    refine ⟨?_, by simp only [frameHeaderBytes] at stays; omega⟩
    unfold frameAt at found
    split at found
    · rename_i length pos sum hl hp hs
      split at found
      · split at found
        · rw [← (Prod.mk.inj (Option.some.inj found)).1]
          exact hp
        · cases found
      · cases found
    · cases found
  simp only [acceptedBeyond, head?_eq_none_iff, filterMap_eq_nil_iff, List.mem_filter,
    mem_range'_1, Option.map_eq_none_iff, and_imp]
  constructor
  · rintro none offset position stop behind found ⟨low, high⟩
    obtain ⟨named, inside⟩ := reads _ _ _ found
    have gone := none offset (by omega) (by omega) (by rw [named]; simp [low, high])
    rw [found] at gone
    cases gone
  · intro none offset behind inside wanted
    cases found : frameAt hash bytes offset headerChecksummed with
    | none => rfl
    | some pair =>
      obtain ⟨position, stop⟩ := pair
      rw [(reads _ _ _ found).1] at wanted
      exact absurd (by simpa using wanted) (none offset position stop (by omega) found)

end

end TallyOwl.Wal
