import TallyOwl.Store.Wal.Books
import TallyOwl.Store.Xxh3

/-! How large one group of a commit may be. Two bounds decide whether to cut what is
pending, and one walk over its bytes decides where. -/
namespace TallyOwl.Wal
open Lib Format List

section
variable {hash : Bytes → UInt64} {settings : GroupCommit} {shared : Shared} {frames : List Frame}

theorem framesIn_encodeFrames (hash : Bytes → UInt64) (headerChecksummed : Bool)
    (frames : List Frame) (fits : ∀ f ∈ frames, f.Fits) :
    framesIn (encodeFrames hash headerChecksummed frames) = frames.length := by
  have counted := @framesFrom_encodeFrames hash headerChecksummed [] frames fits _
    (length_le_encodeFrames hash headerChecksummed frames)
  simpa [framesIn] using counted

theorem length_encodeFrames_take (hash : Bytes → UInt64) (headerChecksummed : Bool)
    (frames : List Frame) {j k : Nat} (less : j ≤ k) : (encodeFrames hash headerChecksummed (frames.take j)).length ≤
      (encodeFrames hash headerChecksummed (frames.take k)).length := by
  have parts : (frames.take k).take j = frames.take j := by
    rw [take_take, Nat.min_eq_left less]
  rw [← take_append_drop j (frames.take k), parts, encodeFrames_append, length_append]
  omega

/-- A non-empty prefix of whole frames inside both bounds, and the count repaired. -/
def RespectsBounds (hash : Bytes → UInt64) (settings : GroupCommit) (shared : Shared)
    (frames : List Frame) : Prop :=
  ∃ taken left : List Frame, frames = taken ++ left ∧ (frames ≠ [] → taken ≠ []) ∧
    takeGroup settings shared =
      (encodeFrames hash shared.headerChecksummed taken,
        { shared with
          pending := encodeFrames hash shared.headerChecksummed left
          pendingFrames := left.length }) ∧
    taken.length ≤ settings.maxGroupFrames ∧
    (taken.length = 1 ∨
      (encodeFrames hash shared.headerChecksummed taken).length ≤ settings.maxGroupBytes)

theorem takeGroup_taken
    (pending : shared.pending = encodeFrames hash shared.headerChecksummed frames)
    (fits : ∀ f ∈ frames, f.Fits) (counted : shared.pendingFrames = frames.length) :
    ∃ k, k ≤ frames.length ∧ (frames ≠ [] → 0 < k) ∧
      takeGroup settings shared =
        (encodeFrames hash shared.headerChecksummed (frames.take k),
          { shared with
            pending := encodeFrames hash shared.headerChecksummed (frames.drop k)
            pendingFrames := (frames.drop k).length }) ∧
      (k ≤ 1 ∨ (encodeFrames hash shared.headerChecksummed (frames.take k)).length ≤
        settings.maxGroupBytes) ∧
      (k < frames.length → settings.maxGroupBytes <
        (encodeFrames hash shared.headerChecksummed (frames.take (k + 1))).length) := by
  unfold takeGroup
  split
  · obtain ⟨k, small, positive, cut, stays, stops⟩ := @frameBoundaryBefore_encodeFrames hash
      shared.headerChecksummed settings.maxGroupBytes frames fits
    have parts : shared.pending =
        encodeFrames hash shared.headerChecksummed (frames.take k) ++
          encodeFrames hash shared.headerChecksummed (frames.drop k) := by
      rw [pending, ← encodeFrames_append, take_append_drop]
    have taken : framesIn (encodeFrames hash shared.headerChecksummed (frames.take k)) = k := by
      rw [framesIn_encodeFrames hash _ _ fun f inside => fits f (mem_of_mem_take inside),
        length_take, Nat.min_eq_left small]
    refine ⟨k, small, positive, ?_, stays, stops⟩
    rw [← pending] at cut
    simp only [cut]
    rw [parts, take_left, drop_left, taken, counted, length_drop]
  · rename_i inside
    refine ⟨frames.length, le_refl _, length_pos_iff.mpr, ?_, .inr ?_,
      fun more => absurd more (lt_irrefl _)⟩
    · rw [take_length, drop_length, pending]
      rfl
    · rw [take_length, ← pending]
      omega

/-- A group meets both bounds exactly when all pending frames fit the frame bound, or the
byte bound cuts them off before it: the walk that cuts looks at bytes alone. -/
theorem takeGroup_respects_bounds_iff (pending : shared.pending = encodeFrames hash shared.headerChecksummed frames)
    (fits : ∀ f ∈ frames, f.Fits) (counted : shared.pendingFrames = frames.length)
    (someFrames : 1 ≤ settings.maxGroupFrames) : RespectsBounds hash settings shared frames ↔
      frames.length ≤ settings.maxGroupFrames ∨ settings.maxGroupBytes < (encodeFrames hash shared.headerChecksummed
        (frames.take (settings.maxGroupFrames + 1))).length := by
  obtain ⟨k, small, positive, group, stays, stops⟩ :=
    @takeGroup_taken hash settings shared frames pending fits counted
  constructor
  · rintro ⟨taken, left, rfl, -, group', few, -⟩
    have same : k = taken.length := by
      have bytes := congrArg (framesIn ∘ Prod.fst) (group.symm.trans group')
      simp only [Function.comp_apply] at bytes
      rw [framesIn_encodeFrames hash _ _ fun f inside => fits f (List.mem_of_mem_take inside),
        framesIn_encodeFrames hash _ _ fun f inside => fits f (by simp [inside]),
        List.length_take, Nat.min_eq_left small] at bytes
      exact bytes
    rcases Nat.lt_or_ge k (taken ++ left).length with more | all
    · right
      calc settings.maxGroupBytes
          < (encodeFrames hash shared.headerChecksummed ((taken ++ left).take (k + 1))).length :=
            stops more
        _ ≤ _ := length_encodeFrames_take hash _ _ (by omega)
    · left
      omega
  · intro condition
    have few : k ≤ settings.maxGroupFrames := by
      rcases condition with all | cut
      · omega
      · by_contra many
        have within := length_encodeFrames_take hash shared.headerChecksummed frames
          (show settings.maxGroupFrames + 1 ≤ k by omega)
        omega
    have counts : (frames.take k).length = k := by rw [List.length_take, Nat.min_eq_left small]
    refine ⟨frames.take k, frames.drop k, (List.take_append_drop k frames).symm, ?_, group,
      by omega, ?_⟩
    · intro some empty
      have := positive some
      rw [empty] at counts
      simp at counts
      omega
    · rcases stays with single | inside
      · rcases Nat.eq_zero_or_pos k with none | one
        · subst none
          exact .inr (by simp)
        · exact .inl (by omega)
      · exact .inr inside

end

section
open Xxh3

def twoWaiting : List Frame := [⟨0, [1]⟩, ⟨1, [2]⟩]

theorem twoWaiting_fits (f : Frame) (inside : f ∈ twoWaiting) : f.Fits := by
  simp only [twoWaiting, mem_cons, not_mem_nil, or_false] at inside
  rcases inside with rfl | rfl
  · exact ⟨by decide, by decide⟩
  · exact ⟨by decide, by decide⟩

/-- A log of version 2 on which these frames wait for a committer. -/
def waitingLog (frames : List Frame) : Shared :=
  { (default : Shared) with
    pending := encodeFrames xxh3 true frames
    pendingFrames := frames.length
    headerChecksummed := true }

def groupsOf (frames : Nat) : GroupCommit := { (default : GroupCommit) with maxGroupFrames := frames }

theorem takeGroup_respects_bounds_two : RespectsBounds xxh3 (groupsOf 2) (waitingLog twoWaiting) twoWaiting :=
  (takeGroup_respects_bounds_iff rfl twoWaiting_fits rfl (by decide)).mpr (.inl (by decide))

/-- Both go out in one group where a group may hold one frame. -/
theorem group_past_frame_bound : (waitingLog twoWaiting).pending =
      encodeFrames xxh3 (waitingLog twoWaiting).headerChecksummed twoWaiting ∧
    (∀ f ∈ twoWaiting, f.Fits) ∧ (waitingLog twoWaiting).pendingFrames = twoWaiting.length ∧
    1 ≤ (groupsOf 1).maxGroupBytes ∧ 1 ≤ (groupsOf 1).maxGroupFrames ∧
    ¬ RespectsBounds xxh3 (groupsOf 1) (waitingLog twoWaiting) twoWaiting := by
  refine ⟨rfl, twoWaiting_fits, rfl, by decide, by decide, ?_⟩
  rintro ⟨taken, left, parts, -, group, few, -⟩
  have both : framesIn (takeGroup (groupsOf 1) (waitingLog twoWaiting)).1 = 2 := by decide +kernel
  rw [group, framesIn_encodeFrames xxh3 _ _ fun f inside =>
    twoWaiting_fits f (by rw [parts]; exact List.mem_append_left _ inside)] at both
  rw [both] at few
  exact absurd few (by decide)

end
end TallyOwl.Wal
