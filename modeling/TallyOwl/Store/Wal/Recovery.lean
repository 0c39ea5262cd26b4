import TallyOwl.Store.Wal.Invariant

/-! Whole runs of the append log: what a caller was told survives, and one file
holds one kind of frame. -/
namespace TallyOwl.Wal
open Lib Format List

section
variable {hash : Bytes → UInt64} {settings : GroupCommit} {directory path : String}
  {file : Option Bytes} {acknowledged : Option Nat} {s t : State}

theorem Inv.opened (opened : openAcknowledged hash path file acknowledged = .ok s) :
    ∃ kept flying waiting, Inv hash s kept flying waiting := by
  unfold openAcknowledged at opened
  cases recovered : recover hash path file acknowledged with
  | error e => simp [recovered, bind, Except.bind] at opened
  | ok r =>
    simp only [recovered, bind, Except.bind] at opened
    cases opened
    have laid : (if r.frames = [] then walMagic else (file.getD []).take r.durableBytes) =
          magicOf (decide (r.frames = []) || r.headerChecksummed) ++
            encodeFrames hash (decide (r.frames = []) || r.headerChecksummed) r.frames ∧
        max r.durableBytes walMagic.length =
          (if r.frames = [] then walMagic else (file.getD []).take r.durableBytes).length ∧
        ∀ f ∈ r.frames, f.Fits := by
      rcases recover_sound recovered with rfl | ⟨bytes, rfl, fits, taken, bound⟩
      · exact ⟨rfl, rfl, by simp [nothingRecovered]⟩
      · have size := congrArg List.length taken
        rw [length_take, length_append, length_magicOf] at size
        by_cases none : r.frames = []
        · simp only [none, encodeFrames_nil, length_nil] at size
          simp only [none, if_true, decide_true, Bool.true_or, encodeFrames_nil]
          exact ⟨rfl, by omega, by simp⟩
        · simp only [none, if_false, decide_false, Bool.false_or, Option.getD_some]
          refine ⟨taken, ?_, fits⟩
          rw [length_take]
          omega
    obtain ⟨bytes, upto, fits⟩ := laid
    have whole : ∀ x : Bytes, Disk.read ⟨[x], 0⟩ 0 = x := fun x => rfl
    refine ⟨r.frames, [], [], ⟨rfl, by simp, ?_, ?_, rfl, by simpa using fits, .nil, by simp,
      by simp, le_refl _⟩, .idle rfl rfl (by simp) (fun _ => rfl), ⟨by simp, by simp⟩, by simp⟩
    · simp only [whole, upto, take_length]
      exact bytes
    · simp only [upto]
      rw [bytes]

/-- What a stretch of the waiting or the committing loop leaves alone. -/
structure Shared.SameFile (a b : Shared) : Prop where
  file : b.file = a.file
  durableUpto : b.durableUpto = a.durableUpto
  nextPosition : b.nextPosition = a.nextPosition
  headerChecksummed : b.headerChecksummed = a.headerChecksummed

theorem takeGroup_sameFile (shared : Shared) : shared.SameFile (takeGroup settings shared).2 := by
  unfold takeGroup
  split <;> exact ⟨rfl, rfl, rfl, rfl⟩

theorem commitLoop_sameFile (position : Nat) (shared : Shared) :
    shared.SameFile (commitLoop settings position shared).1 := by
  have group := @takeGroup_sameFile settings shared
  simp only [commitLoop]
  split
  · exact ⟨rfl, rfl, rfl, rfl⟩
  · split
    · exact ⟨group.file, group.durableUpto, group.nextPosition, group.headerChecksummed⟩
    · exact ⟨group.file, group.durableUpto, group.nextPosition, group.headerChecksummed⟩

theorem waitLoop_sameFile (position : Nat) (shared : Shared) :
    shared.SameFile (waitLoop settings position shared).1 := by
  unfold waitLoop
  split
  · exact ⟨rfl, rfl, rfl, rfl⟩
  · split
    · exact ⟨rfl, rfl, rfl, rfl⟩
    · split
      · split
        · have led := @commitLoop_sameFile settings position { shared with committing := true }
          exact ⟨led.file, led.durableUpto, led.nextPosition, led.headerChecksummed⟩
        · exact ⟨rfl, rfl, rfl, rfl⟩
      · exact ⟨rfl, rfl, rfl, rfl⟩

theorem afterWrite_sameFile (position offset : Nat) (take : Bytes) (shared : Shared) :
    (synced take offset shared).SameFile (afterWrite settings position take offset shared).1 := by
  simp only [afterWrite]
  split
  · exact ⟨rfl, rfl, rfl, rfl⟩
  · exact commitLoop_sameFile position _

theorem rewrite_headerChecksummed {through : Nat} {fault : Option Fault} {disk : Disk}
    {shared : Shared} (version : shared.headerChecksummed = true) :
    (rewrite hash settings directory through fault disk shared).2.1.headerChecksummed = true := by
  simp only [rewrite]
  split
  · exact version
  · exact version
  · split
    · rfl
    · split
      · rfl
      · exact version

theorem step_headerChecksummed {e : Event} (version : s.shared.headerChecksummed = true)
    (next : step hash settings directory s e = some t) : t.shared.headerChecksummed = true := by
  cases e with
  | append payload =>
    simp only [step, append, bind, Option.bind] at next
    split at next
    · cases next
    · rename_i entered
      cases next
      split at entered
      · cases entered
        exact version
      · split at entered
        · cases entered
          exact (waitLoop_sameFile _ _).headerChecksummed.trans version
        · cases entered
  | wake i =>
    simp only [step] at next
    split at next
    · cases next
      exact (waitLoop_sameFile _ _).headerChecksummed.trans version
    · cases next
  | lingered i =>
    simp only [step] at next
    split at next
    · cases next
      exact (commitLoop_sameFile _ _).headerChecksummed.trans version
    · cases next
  | written i =>
    simp only [step] at next
    split at next
    · cases next
      exact (afterWrite_sameFile _ _ _ _).headerChecksummed.trans version
    · cases next
  | refused i error =>
    simp only [step] at next
    split at next
    · cases next
      exact version
    · cases next
  | device i part =>
    simp only [step] at next
    split at next
    · split at next
      · cases next
        exact version
      · cases next
    · cases next
  | reclaim through fault =>
    simp only [step, reclaimTurn] at next
    split at next
    · cases next
      exact version
    · cases next
      exact rewrite_headerChecksummed version
  | reclaimWake j fault =>
    simp only [step, reclaimTurn] at next
    split at next
    · split at next
      · cases next
        exact version
      · cases next
        exact rewrite_headerChecksummed version
    · cases next
  | reclaimTimedOut j =>
    simp only [step] at next
    split at next
    · cases next
      exact version
    · cases next

theorem opened_headerChecksummed (opened : openAcknowledged hash path file acknowledged = .ok s)
    (current : ∀ rest, file ≠ some (walMagicV1 ++ rest)) : s.shared.headerChecksummed = true := by
  unfold openAcknowledged at opened
  cases recovered : recover hash path file acknowledged with
  | error e => simp [recovered, bind, Except.bind] at opened
  | ok r =>
    simp only [recovered, bind, Except.bind] at opened
    cases opened
    rcases recover_sound recovered with rfl | ⟨bytes, rfl, -, taken, -⟩
    · rfl
    · cases version : r.headerChecksummed with
      | true => simp
      | false =>
        rw [version] at taken
        have split := (take_append_drop r.durableBytes bytes).symm
        rw [taken, append_assoc] at split
        exact absurd (congrArg some split) (current _)

def PayloadFits (_ : State) : Event → Prop
  | .append payload => payload.length < 2 ^ 32
  | _ => True

instance (s : State) (e : Event) : Decidable (PayloadFits s e) :=
  match e with
  | .append payload => inferInstanceAs (Decidable (payload.length < 2 ^ 32))
  | .wake _ | .lingered _ | .device _ _ | .written _ | .refused _ _ | .reclaim _ _
  | .reclaimWake _ _ | .reclaimTimedOut _ => inferInstanceAs (Decidable True)

theorem keepsOneKind_of_version2 {e : Event} (version : s.shared.headerChecksummed = true)
    (fits : PayloadFits s e) : KeepsOneKind hash settings directory s e := by
  cases e with
  | append payload => exact fits
  | reclaim through fault => exact fun _ _ => .inl version
  | reclaimWake j fault => exact fun _ _ _ _ => .inl version
  | _ => trivial

def State.onDisk (s : State) : Bytes := s.disk.read s.disk.named

theorem Inv.recovers {kept flying waiting : List Frame} (inv : Inv hash s kept flying waiting) :
    ∃ r, recover hash path (some s.onDisk) none = .ok r ∧ ∀ f ∈ kept, f ∈ r.frames := by
  have parts := (take_append_drop s.shared.durableUpto s.onDisk).symm
  rw [State.onDisk, inv.books.named, inv.books.durable, append_assoc] at parts
  obtain ⟨more, complete, next, read⟩ := recover_encodeFrames hash path s.shared.headerChecksummed
    kept (fun f inside => inv.books.fits f (by simp [inside]))
    ((s.disk.read s.shared.file).drop s.shared.durableUpto)
  rw [← parts, ← inv.books.named] at read
  exact ⟨_, read, fun f inside => mem_append_left _ inside⟩

/-- On a log that is empty or of version 2, every append that returned `Ok` is read
back by recovery until a reclamation covers it, and no two were told one position. -/
theorem append_ok_survives (opened : openAcknowledged hash path file acknowledged = .ok s)
    (current : ∀ rest, file ≠ some (walMagicV1 ++ rest)) (run : Reach (step hash settings directory) PayloadFits s t) :
    (∀ (i p : Nat) (payload : Bytes), t.calls[i]? = some ⟨payload, .returned (.ok p)⟩ → Reclaimed t.reclaims p ∨
        ∃ r, recover hash path (some t.onDisk) none = .ok r ∧ ⟨p, payload⟩ ∈ r.frames) ∧
    (∀ (i j p q : Nat) (a b : Bytes), i ≠ j → t.calls[i]? = some ⟨a, .returned (.ok p)⟩ →
      t.calls[j]? = some ⟨b, .returned (.ok q)⟩ → p ≠ q) := by
  have held : t.shared.headerChecksummed = true ∧
      ∃ kept flying waiting, Inv hash t kept flying waiting := by
    refine Reach.invariant (fun t => t.shared.headerChecksummed = true ∧
      ∃ kept flying waiting, Inv hash t kept flying waiting)
      ⟨opened_headerChecksummed opened current, Inv.opened opened⟩ ?_ run
    rintro s e t ⟨version, kept, flying, waiting, inv⟩ allowed next
    obtain ⟨kept', flying', waiting', after, -⟩ :=
      inv.step (keepsOneKind_of_version2 version allowed) next
    exact ⟨step_headerChecksummed version next, kept', flying', waiting', after⟩
  obtain ⟨-, kept, flying, waiting, inv⟩ := held
  constructor
  · intro i p payload told
    rcases (inv.accounted i _ told).told p rfl with there | gone
    · obtain ⟨r, read, all⟩ := @Inv.recovers hash path t kept flying waiting inv
      exact .inr ⟨r, read, all _ there⟩
    · exact .inl gone
  · rintro i j p q a b other first second rfl
    rcases Nat.lt_or_gt_of_ne other with less | less
    · exact absurd (inv.ledger.distinct i j _ _ less first second p p rfl rfl) (lt_irrefl p)
    · exact absurd (inv.ledger.distinct j i _ _ less second first p p rfl rfl) (lt_irrefl p)

/-- Every frame on disk, in the group being written and pending has the form the
magic of the file names, and recovery reads them all back. -/
def OneKind (hash : Bytes → UInt64) (path : String) (s : State) : Prop :=
  ∃ (version : Bool) (kept flying waiting : List Frame) (next : Nat),
    s.onDisk.take walMagic.length = magicOf version ∧
    s.onDisk.take s.shared.durableUpto = magicOf version ++ encodeFrames hash version kept ∧
    (∀ (i : Nat) (payload take : Bytes) (position offset handle : Nat),
      s.calls[i]? = some ⟨payload, .writing position take offset handle⟩ →
        take = encodeFrames hash version flying) ∧
    s.shared.pending = encodeFrames hash version waiting ∧
    recover hash path (some (s.onDisk.take s.shared.durableUpto ++ s.shared.pending)) none =
      .ok ⟨kept ++ waiting, (s.onDisk.take s.shared.durableUpto ++ s.shared.pending).length,
        next, version⟩

theorem Inv.oneKind {kept flying waiting : List Frame} (inv : Inv hash s kept flying waiting) :
    OneKind hash path s := by
  have durable : s.onDisk.take s.shared.durableUpto = magicOf s.shared.headerChecksummed ++
      encodeFrames hash s.shared.headerChecksummed kept := by
    rw [State.onDisk, inv.books.named, inv.books.durable]
  have whole := recover_whole hash path s.shared.headerChecksummed (kept ++ waiting) (by
    intro f inside
    refine inv.books.fits f ?_
    rcases mem_append.mp inside with old | queued <;> simp [*])
  refine ⟨s.shared.headerChecksummed, kept, flying, waiting, nextAfter 0 (kept ++ waiting), ?_,
    durable, ?_, inv.books.pending, ?_⟩
  · have head := congrArg (List.take walMagic.length) durable
    rw [take_take, ← length_magicOf s.shared.headerChecksummed, take_left,
      Nat.min_eq_left (by rw [inv.books.upto, length_append]; omega)] at head
    rwa [← length_magicOf s.shared.headerChecksummed]
  · intro i payload take position offset handle there
    obtain ⟨-, -, -, -, writing⟩ := inv.crew.of_commits there rfl
    exact (writing _ _ _ _ rfl).1
  · rw [durable, inv.books.pending, append_assoc, ← encodeFrames_append]
    exact whole

/-- A log of either version holds one kind of frame in every state of a run whose
payloads fit and whose reclamations rewrite a version 1 file only with nothing pending. -/
theorem one_kind_of_frame (opened : openAcknowledged hash path file acknowledged = .ok s)
    (run : Reach (step hash settings directory) (KeepsOneKind hash settings directory) s t) : OneKind hash path t := by
  have held : ∃ kept flying waiting, Inv hash t kept flying waiting := by
    refine Reach.invariant (fun t => ∃ kept flying waiting, Inv hash t kept flying waiting)
      (Inv.opened opened) ?_ run
    rintro s e t ⟨kept, flying, waiting, inv⟩ allowed next
    obtain ⟨kept', flying', waiting', after, -⟩ := inv.step allowed next
    exact ⟨kept', flying', waiting', after⟩
  obtain ⟨kept, flying, waiting, inv⟩ := held
  exact inv.oneKind

end

section
open Xxh3

def logPath : String := "tablet/append.log"

def freshLog : State := (openAcknowledged xxh3 logPath none none).toOption.getD default

def olderFile : Bytes := walMagicV1 ++ encodeFrame xxh3 0 [7] false

def olderLog : State := (openAcknowledged xxh3 logPath (some olderFile) none).toOption.getD default

theorem append_ok_survives_one_caller : ∃ t : State, Reach (step xxh3 default "tablet") PayloadFits freshLog t ∧
      t.calls[0]? = some ⟨[1], .returned (.ok 0)⟩ ∧ (Reclaimed t.reclaims 0 ∨
      ∃ r, recover xxh3 logPath (some t.onDisk) none = .ok r ∧ ⟨0, [1]⟩ ∈ r.frames) := by
  obtain ⟨t, run, told⟩ := @Reach.of_exec_any _ _ (step xxh3 default "tablet") PayloadFits _ freshLog
    [.append [1], .lingered 0, .device 0 [9, 9], .written 0]
    (fun t => t.calls[0]? = some ⟨[1], .returned (.ok 0)⟩) (by decide +kernel)
  have answered : t.calls[0]? = some ⟨[1], .returned (.ok 0)⟩ := by simpa using told
  have opened : openAcknowledged xxh3 logPath none none = .ok freshLog := by decide +kernel
  exact ⟨t, run, answered, (append_ok_survives opened (by simp) run).1 0 0 [1] answered⟩

/-- The steps that turn an older file into a version 2 file behind a parked caller:
the committer stands down for the reclamation with the other caller's frame pending. -/
def standDown : List Event :=
  [.append [1], .lingered 0, .append [2], .reclaim 0 none, .written 0, .reclaimWake 0 none]

theorem one_kind_of_frame_quiet : ∃ t : State, Reach (step xxh3 default "tablet") (KeepsOneKind xxh3 default "tablet")
      olderLog t ∧ t.shared.headerChecksummed = true ∧ OneKind xxh3 logPath t := by
  obtain ⟨t, run, upgraded⟩ := @Reach.of_exec_any _ _ (step xxh3 default "tablet")
    (KeepsOneKind xxh3 default "tablet") _ olderLog
    [.append [1], .lingered 0, .reclaim 0 none, .written 0, .reclaimWake 0 none, .append [2]]
    (fun t => t.shared.headerChecksummed) (by decide +kernel)
  have opened : openAcknowledged xxh3 logPath (some olderFile) none = .ok olderLog := by
    decide +kernel
  exact ⟨t, run, upgraded, one_kind_of_frame opened run⟩

theorem mixed_kinds_after_stand_down : openAcknowledged xxh3 logPath (some olderFile) none = .ok olderLog ∧
    ∃ t, Reach (step xxh3 default "tablet") anyStep olderLog t ∧ ¬ OneKind xxh3 logPath t := by
  refine ⟨by decide +kernel, ?_⟩
  obtain ⟨t, run, torn⟩ := @Reach.of_exec_any _ _ (step xxh3 default "tablet") anyStep _ olderLog
    standDown (fun t =>
      (recover xxh3 logPath (some (t.onDisk.take t.shared.durableUpto ++ t.shared.pending))
        none).toOption.any fun r => r.durableBytes <
          (t.onDisk.take t.shared.durableUpto ++ t.shared.pending).length) (by decide +kernel)
  refine ⟨t, run, ?_⟩
  rintro ⟨version, kept, flying, waiting, next, -, -, -, -, read⟩
  rw [read] at torn
  simp [Except.toOption] at torn

end
end TallyOwl.Wal
