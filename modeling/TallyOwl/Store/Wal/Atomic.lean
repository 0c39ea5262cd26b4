import TallyOwl.Store.Wal.Recovery

/-! The append log on a device that writes a group whole or not at all. The file is
then the magic and the frames the log answers for, to the byte, so a restart reads back
exactly these. -/
namespace TallyOwl.Wal
open Lib Format List

section
variable {hash : Bytes → UInt64} {settings : GroupCommit} {directory path : String}
  {s t : State} {kept flying waiting : List Frame}

def Event.whole : Event → Bool
  | .device _ _ => false
  | _ => true

structure Clean (hash : Bytes → UInt64) (s : State) (kept flying waiting : List Frame) : Prop where
  inv : Inv hash s kept flying waiting
  version : s.shared.headerChecksummed = true
  exact : (s.disk.read s.shared.file).length = s.shared.durableUpto

theorem Clean.onDisk (clean : Clean hash s kept flying waiting) :
    s.onDisk = magicOf true ++ encodeFrames hash true kept := by
  have durable := clean.inv.books.durable
  rw [← clean.exact, take_length, clean.version] at durable
  rw [State.onDisk, clean.inv.books.named, durable]

theorem length_writeAt_end {file bytes : Bytes} {offset : Nat} (level : file.length = offset) :
    (writeAt file offset bytes).length = offset + bytes.length := by
  simp only [writeAt, length_append, length_take, length_replicate,
    length_drop]
  omega

variable {shared : Shared} {disk : Disk}

theorem rewrite_exact {through : Nat} {fault : Option Fault}
    (level : (disk.read shared.file).length = shared.durableUpto) :
    let result := rewrite hash settings directory through fault disk shared
    (result.1.read result.2.1.file).length = result.2.1.durableUpto := by
  simp only [rewrite]
  split
  · exact level
  · exact level
  · split
    · simp [Disk.replace, Disk.read]
    · split
      · simp [Disk.replace, Disk.read]
      · exact level

variable {e : Event}

theorem step_exact (inv : Inv hash s kept flying waiting) (whole : e.whole = true)
    (level : (s.disk.read s.shared.file).length = s.shared.durableUpto)
    (next : step hash settings directory s e = some t) : (t.disk.read t.shared.file).length = t.shared.durableUpto := by
  have kept : ∀ shared : Shared, s.shared.SameFile shared →
      (s.disk.read shared.file).length = shared.durableUpto := by
    intro shared same
    rw [same.file, same.durableUpto]
    exact level
  cases e with
  | append payload =>
    simp only [step, append, bind, Option.bind] at next
    split at next
    · cases next
    · rename_i entered
      cases next
      split at entered
      · cases entered
        exact level
      · split at entered
        · cases entered
          have same := @waitLoop_sameFile settings s.shared.nextPosition { s.shared with
            nextPosition := s.shared.nextPosition + 1
            pending := s.shared.pending ++
              encodeFrame hash s.shared.nextPosition payload s.shared.headerChecksummed
            pendingFrames := s.shared.pendingFrames + 1 }
          show (s.disk.read _).length = _
          rw [same.file, same.durableUpto]
          exact level
        · cases entered
  | wake i =>
    simp only [step] at next
    split at next
    · cases next
      exact kept _ (waitLoop_sameFile _ _)
    · cases next
  | lingered i =>
    simp only [step] at next
    split at next
    · cases next
      exact kept _ (commitLoop_sameFile _ _)
    · cases next
  | device i part => cases whole
  | written i =>
    simp only [step] at next
    split at next
    · rename_i payload position take offset handle there
      cases next
      obtain ⟨-, -, -, -, writing⟩ := inv.crew.of_commits there rfl
      obtain ⟨-, rfl, rfl, -⟩ := writing _ _ _ _ rfl
      have same := @afterWrite_sameFile settings position s.shared.durableUpto take s.shared
      simp only [State.moved]
      rw [same.file, same.durableUpto]
      simp only [synced]
      rw [Disk.read_write _ _ inv.books.opened, length_writeAt_end level]
      omega
    · cases next
  | refused i error =>
    simp only [step] at next
    split at next
    · cases next
      exact level
    · cases next
  | reclaim through fault =>
    simp only [step, reclaimTurn] at next
    split at next
    · cases next
      exact level
    · cases next
      exact rewrite_exact level
  | reclaimWake j fault =>
    simp only [step, reclaimTurn] at next
    split at next
    · split at next
      · cases next
        exact level
      · cases next
        exact rewrite_exact level
    · cases next
  | reclaimTimedOut j =>
    simp only [step] at next
    split at next
    · cases next
      exact level
    · cases next

theorem Clean.step (clean : Clean hash s kept flying waiting) (whole : e.whole = true)
    (fits : PayloadFits s e) (next : step hash settings directory s e = some t) :
    ∃ kept' flying' waiting', Clean hash t kept' flying' waiting' ∧ ∀ f ∈ kept, Safe t.reclaims kept' f := by
  obtain ⟨kept', flying', waiting', inv, stays⟩ :=
    clean.inv.step (keepsOneKind_of_version2 clean.version fits) next
  exact ⟨kept', flying', waiting', ⟨inv, step_headerChecksummed clean.version next,
    step_exact clean.inv whole clean.exact next⟩, stays⟩

/-! What a step does to the calls, the positions and the reclamations. -/

theorem commitLoop_position {position p : Nat}
    (held : (commitLoop settings position shared).2.position = some p) : p = position := by
  simp only [commitLoop] at held
  split at held
  · exact (Option.some.inj held).symm
  · split at held
    · split at held
      · exact (Option.some.inj held).symm
      · cases held
    · exact (Option.some.inj held).symm

theorem waitLoop_position {position p : Nat}
    (held : (waitLoop settings position shared).2.position = some p) : p = position := by
  unfold waitLoop at held
  split at held
  · exact (Option.some.inj held).symm
  · split at held
    · cases held
    · split at held
      · split at held
        · exact commitLoop_position held
        · exact (Option.some.inj held).symm
      · exact (Option.some.inj held).symm

theorem afterWrite_position {position offset p : Nat} {take : Bytes}
    (held : (afterWrite settings position take offset shared).2.position = some p) : p = position := by
  simp only [afterWrite] at held
  split at held
  · exact (Option.some.inj held).symm
  · exact commitLoop_position held

theorem rewrite_nextPosition {through : Nat} {fault : Option Fault} :
    (rewrite hash settings directory through fault disk shared).2.1.nextPosition = shared.nextPosition := by
  simp only [rewrite]
  split
  · rfl
  · rfl
  · split
    · rfl
    · split <;> rfl

/-- A call goes on with its payload and no position but its own, a new one takes the
next position, and a reclamation keeps the bound it came with. -/
structure Onward (s : State) (e : Event) (t : State) : Prop where
  nextPosition : s.shared.nextPosition ≤ t.shared.nextPosition
  length : s.calls.length ≤ t.calls.length
  pushed : ∀ payload, e = .append payload → s.calls.length < t.calls.length
  calls : ∀ (i : Nat) (d : Call), t.calls[i]? = some d →
    (∃ c : Call, s.calls[i]? = some c ∧ d.payload = c.payload ∧
      ∀ p, d.stage.position = some p → c.stage.position = some p) ∨
    (i = s.calls.length ∧ e = .append d.payload ∧
      ∀ p, d.stage.position = some p → p = s.shared.nextPosition)
  reclaims : ∀ r ∈ t.reclaims, (∃ r' ∈ s.reclaims, r'.through = r.through) ∨
    ∃ fault, e = .reclaim r.through fault

theorem Onward.moved {i position : Nat} {c : Call} {result : Shared × Stage}
    (there : s.calls[i]? = some c) (active : c.stage.active = some position)
    (next : result.1.nextPosition = s.shared.nextPosition) (same : ∀ p, result.2.position = some p → p = position)
    (inner : ∀ payload, e ≠ .append payload) : Onward s e ({ s with disk }.moved i c.payload result) := by
  refine ⟨next.ge, by simp [State.moved], fun payload enters => absurd enters (inner payload),
    fun j d found => .inl ?_, fun r inside => .inl ⟨r, inside, rfl⟩⟩
  rcases getElem?_set_cases found with ⟨rfl, rfl⟩ | ⟨-, before⟩
  · refine ⟨c, there, rfl, fun p held => ?_⟩
    rw [Stage.position_of_active active, same p held]
  · exact ⟨d, before, rfl, fun p held => held⟩

theorem Onward.reclaimed {reclaims : List Reclaim}
    (next : shared.nextPosition = s.shared.nextPosition) (inner : ∀ payload, e ≠ .append payload)
    (bounds : ∀ r ∈ reclaims, (∃ r' ∈ s.reclaims, r'.through = r.through) ∨ ∃ fault, e = .reclaim r.through fault) :
    Onward s e { s with disk, shared, reclaims } :=
  ⟨next.ge, le_refl _, fun payload enters => absurd enters (inner payload),
    fun _ d found => .inl ⟨d, found, rfl, fun _ held => held⟩, bounds⟩

theorem step_onward (next : step hash settings directory s e = some t) : Onward s e t := by
  have replaced : ∀ (j through : Nat) (result : Option (Except WalError Nat)),
      s.reclaims[j]? = some ⟨through, none⟩ → ∀ r ∈ s.reclaims.set j ⟨through, result⟩,
      (∃ r' ∈ s.reclaims, r'.through = r.through) ∨ ∃ fault, e = .reclaim r.through fault := by
    intro j through result there r inside
    rcases mem_or_eq_of_mem_set inside with old | rfl
    · exact .inl ⟨r, old, rfl⟩
    · exact .inl ⟨_, mem_of_getElem? there, rfl⟩
  cases e with
  | append payload =>
    simp only [step, append, bind, Option.bind] at next
    split at next
    · cases next
    · rename_i entered
      cases next
      have pushed : ∀ result : Shared × Stage,
          s.shared.nextPosition ≤ result.1.nextPosition →
          (∀ p, result.2.position = some p → p = s.shared.nextPosition) →
          Onward s (.append payload)
            { s with shared := result.1, calls := s.calls ++ [⟨payload, result.2⟩] } := by
        intro result grows own
        refine ⟨grows, by simp, by simp, fun j d found => ?_, fun r inside => .inl ⟨r, inside, rfl⟩⟩
        rcases getElem?_push_cases found with ⟨rfl, rfl⟩ | ⟨-, before⟩
        · exact .inr ⟨rfl, rfl, own⟩
        · exact .inl ⟨d, before, rfl, fun p held => held⟩
      split at entered
      · cases entered
        exact pushed _ (le_refl _) (by rintro p ⟨⟩)
      · split at entered
        · cases entered
          refine pushed _ ?_ fun p held => waitLoop_position held
          rw [(waitLoop_sameFile _ _).nextPosition]
          exact Nat.le_succ _
        · cases entered
  | wake i =>
    simp only [step] at next
    split at next
    · rename_i there
      cases next
      exact .moved there rfl (waitLoop_sameFile _ _).nextPosition
        (fun p held => waitLoop_position held) (by simp)
    · cases next
  | lingered i =>
    simp only [step] at next
    split at next
    · rename_i there
      cases next
      exact .moved there rfl (commitLoop_sameFile _ _).nextPosition
        (fun p held => commitLoop_position held) (by simp)
    · cases next
  | device i part =>
    simp only [step] at next
    split at next
    · split at next
      · cases next
        exact ⟨le_refl _, le_refl _, by simp, fun _ d found => .inl ⟨d, found, rfl, fun _ held => held⟩,
          fun r inside => .inl ⟨r, inside, rfl⟩⟩
      · cases next
    · cases next
  | written i =>
    simp only [step] at next
    split at next
    · rename_i there
      cases next
      exact .moved there rfl (afterWrite_sameFile _ _ _ _).nextPosition
        (fun p held => afterWrite_position held) (by simp)
    · cases next
  | refused i error =>
    simp only [step] at next
    split at next
    · rename_i there
      cases next
      exact .moved there rfl rfl (by rintro p ⟨⟩) (by simp)
    · cases next
  | reclaim through fault =>
    have pushed : ∀ result, ∀ r ∈ s.reclaims ++ [⟨through, result⟩],
        (∃ r' ∈ s.reclaims, r'.through = r.through) ∨
          ∃ fault', Event.reclaim through fault = .reclaim r.through fault' := by
      intro result r inside
      rcases mem_append.mp inside with old | new
      · exact .inl ⟨r, old, rfl⟩
      · obtain rfl := mem_singleton.mp new
        exact .inr ⟨fault, rfl⟩
    simp only [step, reclaimTurn] at next
    split at next
    · cases next
      exact .reclaimed rfl (by simp) (pushed _)
    · cases next
      exact .reclaimed rewrite_nextPosition (by simp) (pushed _)
  | reclaimWake j fault =>
    simp only [step, reclaimTurn] at next
    split at next
    · rename_i there
      split at next
      · cases next
        exact .reclaimed rfl (by simp) fun r inside => .inl ⟨r, inside, rfl⟩
      · cases next
        exact .reclaimed rewrite_nextPosition (by simp) (replaced j _ _ there)
    · cases next
  | reclaimTimedOut j =>
    simp only [step] at next
    split at next
    · rename_i there
      cases next
      exact .reclaimed rfl (by simp) (replaced j _ _ there)
    · cases next

theorem Inv.told {i p : Nat} {payload : Bytes} (inv : Inv hash s kept flying waiting)
    (there : s.calls[i]? = some ⟨payload, .returned (.ok p)⟩)
    (beyond : ∀ r ∈ s.reclaims, r.through < p) : ⟨p, payload⟩ ∈ kept := by
  rcases (inv.accounted i _ there).told p rfl with held | ⟨r, inside, covers, -⟩
  · exact held
  · exact absurd (beyond r inside) (not_lt.mpr covers)

/-! A restart. -/

def Rests (hash : Bytes → UInt64) (file : Option Bytes) (kept : List Frame) : Prop :=
  (∀ f ∈ kept, f.Fits) ∧
    ((file = none ∧ kept = []) ∨ file = some (magicOf true ++ encodeFrames hash true kept))

theorem recover_rests {file : Option Bytes} (rests : Rests hash file kept) (acknowledged : Option Nat) :
    ∃ upto, recover hash path file acknowledged = .ok ⟨kept, upto, nextAfter 0 kept, true⟩ ∧
      (kept ≠ [] → file = some (magicOf true ++ encodeFrames hash true kept) ∧
        upto = (magicOf true ++ encodeFrames hash true kept).length) ∧ (kept = [] → upto ≤ walMagic.length) := by
  obtain ⟨fits, ⟨rfl, rfl⟩ | rfl⟩ := rests
  · exact ⟨0, rfl, fun some => absurd rfl some, fun _ => by simp⟩
  · refine ⟨_, recover_acknowledged (recover_whole hash path true kept fits) rfl acknowledged,
      fun _ => ⟨rfl, rfl⟩, ?_⟩
    rintro rfl
    simp [encodeFrames_nil]

theorem open_rests {file : Option Bytes} (rests : Rests hash file kept) (acknowledged : Option Nat) :
    ∃ s, openAcknowledged hash path file acknowledged = .ok s ∧ Clean hash s kept [] [] ∧
      s.calls = [] ∧ s.reclaims = [] ∧ s.shared.nextPosition = nextAfter 0 kept := by
  obtain ⟨upto, read, laid, short⟩ := @recover_rests hash path kept _ rests acknowledged
  have bytes : (if kept = [] then walMagic else (file.getD []).take upto) =
      magicOf true ++ encodeFrames hash true kept := by
    split
    · rename_i none
      simp [none, magicOf, encodeFrames_nil]
    · rename_i some
      obtain ⟨rfl, rfl⟩ := laid some
      exact take_length
  have size : max upto walMagic.length = (magicOf true ++ encodeFrames hash true kept).length := by
    by_cases none : kept = []
    · have := short none
      simp [none, encodeFrames_nil]
      omega
    · rw [(laid none).2]
      simp
  have whole : ∀ x : Bytes, Disk.read ⟨[x], 0⟩ 0 = x := fun x => rfl
  cases opened : openAcknowledged hash path file acknowledged with
  | error e => simp [openAcknowledged, read, bind, Except.bind] at opened
  | ok s =>
    simp only [openAcknowledged, read, bind, Except.bind, bytes, size] at opened
    cases opened
    refine ⟨_, rfl, ⟨⟨⟨rfl, by simp, ?_, ?_, rfl, by simpa using rests.1, .nil, by simp, by simp,
      le_refl _⟩, .idle rfl rfl (by simp) (fun _ => rfl), ⟨by simp, by simp⟩, by simp⟩, by simp, ?_⟩,
      rfl, rfl, rfl⟩
    · simp only [whole, take_length, Bool.or_true]
    · simp only [Bool.or_true]
    · simp only [whole]

theorem nextAfter_pos {frames : List Frame} {next : Nat} (some : frames ≠ [] ∨ 0 < next) :
    0 < nextAfter next frames := by
  induction frames generalizing next with
  | nil => simpa [nextAfter] using some
  | cons f rest ih => exact ih (.inr (by simp))

theorem Clean.rests (clean : Clean hash s kept flying waiting) : Rests hash (some s.onDisk) kept :=
  ⟨fun f inside => clean.inv.books.fits f (mem_append_left _ inside), .inr (by rw [clean.onDisk])⟩

end
end TallyOwl.Wal
