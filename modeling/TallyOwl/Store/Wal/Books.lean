import TallyOwl.Store.Wal.GroupCommit

/-! What the fields of the log say in terms of frames, and how one stretch of the
waiting or the committing loop can end. -/
namespace TallyOwl.Wal
open Lib Format List

@[simp] theorem Disk.read_write {disk : Disk} {handle : Nat} (offset : Nat) (bytes : Bytes)
    (opened : handle < disk.inodes.length) :
    (disk.write handle offset bytes).read handle = writeAt (disk.read handle) offset bytes := by
  simp [Disk.read, Disk.write, getElem?_set_self opened]

@[simp] theorem Disk.read_replace (disk : Disk) (bytes : Bytes) :
    (disk.replace bytes).read disk.inodes.length = bytes := by
  simp [Disk.read, Disk.replace]

/-- The frames the log answers for: `kept` are on disk below the durable offset,
`flying` are in the group being written, `waiting` are pending. -/
structure Books (hash : Bytes → UInt64) (disk : Disk) (shared : Shared)
    (kept flying waiting : List Frame) : Prop where
  named : disk.named = shared.file
  opened : shared.file < disk.inodes.length
  durable : (disk.read shared.file).take shared.durableUpto =
    magicOf shared.headerChecksummed ++ encodeFrames hash shared.headerChecksummed kept
  upto : shared.durableUpto = (magicOf shared.headerChecksummed ++
    encodeFrames hash shared.headerChecksummed kept).length
  pending : shared.pending = encodeFrames hash shared.headerChecksummed waiting
  fits : ∀ f ∈ kept ++ (flying ++ waiting), f.Fits
  rising : (flying ++ waiting).Pairwise fun f g => f.position < g.position
  ahead : ∀ f ∈ flying ++ waiting, shared.durableBefore ≤ f.position
  assigned : ∀ f ∈ flying ++ waiting, f.position < shared.nextPosition
  below : shared.durableBefore ≤ shared.nextPosition

section
variable {hash : Bytes → UInt64} {settings : GroupCommit} {directory : String}
  {disk : Disk} {shared : Shared} {kept flying waiting : List Frame} {position : Nat}

/-- A group is a run of whole frames off the front of what is pending, and it is
empty only when nothing is pending. -/
theorem takeGroup_whole
    (pending : shared.pending = encodeFrames hash shared.headerChecksummed waiting)
    (fits : ∀ f ∈ waiting, f.Fits) :
    ∃ k frames, (waiting ≠ [] → waiting.take k ≠ []) ∧
      takeGroup settings shared =
        (encodeFrames hash shared.headerChecksummed (waiting.take k),
          { shared with
            pending := encodeFrames hash shared.headerChecksummed (waiting.drop k)
            pendingFrames := frames }) := by
  unfold takeGroup
  split
  · obtain ⟨k, -, positive, cut, -⟩ := @frameBoundaryBefore_encodeFrames hash shared.headerChecksummed
      settings.maxGroupBytes waiting fits
    have parts : shared.pending =
        encodeFrames hash shared.headerChecksummed (waiting.take k) ++
          encodeFrames hash shared.headerChecksummed (waiting.drop k) := by
      rw [pending, ← encodeFrames_append, take_append_drop]
    refine ⟨k, shared.pendingFrames - framesIn (shared.pending.take
      (frameBoundaryBefore shared.pending settings.maxGroupBytes)), ?_, ?_⟩
    · intro some
      have := positive some
      simp only [ne_eq, take_eq_nil_iff, some, or_false]
      omega
    · rw [← pending] at cut
      simp only [cut]
      rw [parts, take_left, drop_left]
  · refine ⟨waiting.length, 0, ?_, ?_⟩
    · simp
    · rw [take_length, drop_length, pending]
      rfl

/-- What one stretch of the waiting or the committing loop can end in. -/
inductive Ended (hash : Bytes → UInt64) (position : Nat) (waiting : List Frame) (shared : Shared) :
    Shared × Stage → Prop where
  | lingers : Ended hash position waiting shared
      ({ shared with committing := true }, .lingering position)
  | yields (frames : Nat) (result : Except WalError Nat)
      (honest : ∀ p, result = .ok p → p = position ∧ position < shared.durableBefore) :
      Ended hash position waiting shared
        ({ shared with committing := false, pendingFrames := frames }, .returned result)
  | writes (k frames : Nat) (statistics : WalStatistics) :
      Ended hash position waiting shared
        ({ shared with
            committing := true
            pending := encodeFrames hash shared.headerChecksummed (waiting.drop k)
            pendingFrames := frames
            writeOffset := shared.writeOffset +
              (encodeFrames hash shared.headerChecksummed (waiting.take k)).length
            statistics := statistics },
          .writing position (encodeFrames hash shared.headerChecksummed (waiting.take k))
            shared.writeOffset shared.file)

/-- The committer's loop either returns, and then says `Ok` only for a durable
position, or goes out with a group of whole frames. -/
theorem commitLoop_ended (pending : shared.pending = encodeFrames hash shared.headerChecksummed waiting)
    (fits : ∀ f ∈ waiting, f.Fits) : Ended hash position waiting shared
      (commitLoop settings position { shared with committing := true }) := by
  unfold commitLoop
  split
  · rename_i stands
    refine .yields shared.pendingFrames (.ok position) fun p answer => ?_
    cases answer
    exact ⟨rfl, stands.2⟩
  · obtain ⟨k, frames, nonempty, group⟩ := @takeGroup_whole hash settings
      { shared with committing := true } waiting pending fits
    simp only [group]
    split
    · rename_i empty
      have none : waiting = [] := by
        by_contra some
        exact nonempty some ((encodeFrames_eq_nil _ _).mp empty)
      subst none
      rw [drop_nil, ← pending]
      split
      · rename_i durable
        refine .yields frames (.ok position) fun p answer => ?_
        cases answer
        exact ⟨rfl, durable⟩
      · exact .yields frames _ (fun p answer => by cases answer)
    · exact .writes k frames _

theorem waitLoop_ended (pending : shared.pending = encodeFrames hash shared.headerChecksummed waiting)
    (fits : ∀ f ∈ waiting, f.Fits) : (∃ result, (∀ p, result = .ok p → p = position ∧ position < shared.durableBefore) ∧
      waitLoop settings position shared = (shared, .returned result)) ∨
    waitLoop settings position shared = (shared, .parked position) ∨
    (shared.committing = false ∧ shared.failure = none ∧
      Ended hash position waiting shared (waitLoop settings position shared)) := by
  unfold waitLoop
  split
  · rename_i durable
    refine .inl ⟨.ok position, fun p answer => ?_, rfl⟩
    cases answer
    exact ⟨rfl, durable⟩
  · split
    · exact .inl ⟨.error _, (fun p answer => by simp at answer), rfl⟩
    · rename_i working
      split
      · rename_i free
        refine .inr (.inr ⟨free.1, working, ?_⟩)
        split
        · exact commitLoop_ended pending fits
        · exact .lingers
      · exact .inr (.inl rfl)

end

end TallyOwl.Wal
