import TallyOwl.Store.Wal.Reclaimed

/-! What holds between any two events of the append log: which frames are on disk,
which are in the group being written and which are pending, who holds the
committer's role, and where each caller's own frame is. -/
namespace TallyOwl.Wal
open Lib Format List

def Stage.active : Stage → Option Nat
  | .parked position | .lingering position | .writing position _ _ _ => some position
  | .returned _ => none

def Stage.position : Stage → Option Nat
  | .returned (.ok position) => some position
  | stage => stage.active

def Stage.commits : Stage → Bool
  | .lingering _ | .writing _ _ _ _ => true
  | _ => false

/-- Where one call's frame is: safe once its position is below the durable bound,
queued before that, and given up only by a log that has stopped. -/
structure Accounted (safe : Frame → Prop) (queued : List Frame) (before : Nat) (stopped : Prop)
    (c : Call) : Prop where
  told : ∀ p, c.stage = .returned (.ok p) → safe ⟨p, c.payload⟩
  durable : ∀ p, c.stage.active = some p → p < before → safe ⟨p, c.payload⟩
  queued : ∀ p, c.stage.active = some p → before ≤ p → stopped ∨ ⟨p, c.payload⟩ ∈ queued

theorem Accounted.mono {safe safe' : Frame → Prop} {queued queued' : List Frame}
    {before before' : Nat} {stopped stopped' : Prop} {c : Call}
    (known : Accounted safe queued before stopped c) (keeps : ∀ f, safe f → safe' f)
    (grows : before ≤ before') (stops : stopped → stopped' ∧ before' = before)
    (arrives : ∀ f ∈ queued, f.position < before' → safe' f)
    (stays : ∀ f ∈ queued, before' ≤ f.position → stopped' ∨ f ∈ queued') :
    Accounted safe' queued' before' stopped' c where
  told p told := keeps _ (known.told p told)
  durable p active small := by
    by_cases already : p < before
    · exact keeps _ (known.durable p active already)
    · rcases known.queued p active (by omega) with halted | there
      · have same := (stops halted).2
        omega
      · exact arrives _ there small
  queued p active large := by
    rcases known.queued p active (by omega) with halted | there
    · exact .inl (stops halted).1
    · exact stays _ there large

def Reclaimed (reclaims : List Reclaim) (position : Nat) : Prop :=
  ∃ r ∈ reclaims, position ≤ r.through ∧ r.result.isSome

def Safe (reclaims : List Reclaim) (kept : List Frame) (f : Frame) : Prop :=
  f ∈ kept ∨ Reclaimed reclaims f.position

/-- Who holds the committer's role, and what that caller is doing with it. -/
inductive Crew (hash : Bytes → UInt64) (shared : Shared) (calls : List Call)
    (flying : List Frame) : Prop where
  | idle (free : shared.committing = false) (empty : flying = [])
      (nobody : ∀ (j : Nat) (d : Call), calls[j]? = some d → d.stage.commits = false)
      (level : shared.failure = none → shared.writeOffset = shared.durableUpto)
  | led (i : Nat) (c : Call) (taken : shared.committing = true) (working : shared.failure = none)
      (there : calls[i]? = some c) (commits : c.stage.commits = true)
      (alone : ∀ (j : Nat) (d : Call), calls[j]? = some d → d.stage.commits = true → j = i)
      (lingers : ∀ p, c.stage = .lingering p →
        flying = [] ∧ shared.writeOffset = shared.durableUpto)
      (writes : ∀ p take offset handle, c.stage = .writing p take offset handle →
        take = encodeFrames hash shared.headerChecksummed flying ∧ offset = shared.durableUpto ∧
        handle = shared.file ∧ shared.writeOffset = shared.durableUpto + take.length)

/-- Positions are handed out once, in the order the calls came. -/
structure Ledger (calls : List Call) (next : Nat) : Prop where
  numbered : ∀ (i : Nat) (c : Call), calls[i]? = some c →
    ∀ p, c.stage.position = some p → p < next
  distinct : ∀ (i j : Nat) (a b : Call), i < j → calls[i]? = some a → calls[j]? = some b →
    ∀ p q, a.stage.position = some p → b.stage.position = some q → p < q

theorem Ledger.set {calls : List Call} {next i : Nat} {c c' : Call} (ledger : Ledger calls next)
    (there : calls[i]? = some c) (same : ∀ p, c'.stage.position = some p → c.stage.position = some p) :
    Ledger (calls.set i c') next := by
  constructor
  · intro j d found p held
    rcases getElem?_set_cases found with ⟨rfl, rfl⟩ | ⟨-, before⟩
    · exact ledger.numbered _ c there p (same p held)
    · exact ledger.numbered j d before p held
  · intro j k a b less first second p q atFirst atSecond
    rcases getElem?_set_cases first with ⟨rfl, rfl⟩ | ⟨-, beforeFirst⟩
    · rcases getElem?_set_cases second with ⟨rfl, rfl⟩ | ⟨-, beforeSecond⟩
      · omega
      · exact ledger.distinct _ k c b less there beforeSecond p q (same p atFirst) atSecond
    · rcases getElem?_set_cases second with ⟨rfl, rfl⟩ | ⟨-, beforeSecond⟩
      · exact ledger.distinct j _ a c less beforeFirst there p q atFirst (same q atSecond)
      · exact ledger.distinct j k a b less beforeFirst beforeSecond p q atFirst atSecond

theorem Ledger.push {calls : List Call} {next next' : Nat} {c : Call} (ledger : Ledger calls next)
    (grows : next ≤ next') (fresh : ∀ p, c.stage.position = some p → next ≤ p ∧ p < next') :
    Ledger (calls ++ [c]) next' := by
  constructor
  · intro j d found p held
    rcases getElem?_push_cases found with ⟨-, rfl⟩ | ⟨-, before⟩
    · exact (fresh p held).2
    · exact Nat.lt_of_lt_of_le (ledger.numbered j d before p held) grows
  · intro j k a b less first second p q atFirst atSecond
    rcases getElem?_push_cases first with ⟨rfl, rfl⟩ | ⟨-, beforeFirst⟩
    · rcases getElem?_push_cases second with ⟨rfl, rfl⟩ | ⟨bound, -⟩ <;> omega
    · rcases getElem?_push_cases second with ⟨rfl, rfl⟩ | ⟨-, beforeSecond⟩
      · have small := ledger.numbered j a beforeFirst p atFirst
        have large := (fresh q atSecond).1
        omega
      · exact ledger.distinct j k a b less beforeFirst beforeSecond p q atFirst atSecond

structure Inv (hash : Bytes → UInt64) (s : State) (kept flying waiting : List Frame) : Prop where
  books : Books hash s.disk s.shared kept flying waiting
  crew : Crew hash s.shared s.calls flying
  ledger : Ledger s.calls s.shared.nextPosition
  accounted : ∀ (i : Nat) (c : Call), s.calls[i]? = some c →
    Accounted (Safe s.reclaims kept) (flying ++ waiting) s.shared.durableBefore
      (s.shared.failure ≠ none) c

theorem Stage.position_of_active {stage : Stage} {p : Nat} (active : stage.active = some p) :
    stage.position = some p := by
  cases stage <;> simp_all [Stage.active, Stage.position]

theorem Stage.position_eq {stage : Stage} {position q : Nat} (same : ∀ p, stage.active = some p → p = position)
    (answer : ∀ p, stage = .returned (.ok p) → p = position) (held : stage.position = some q) : q = position := by
  cases stage with
  | returned result =>
    cases result with
    | ok p =>
      obtain rfl : p = q := Option.some.inj held
      exact answer p rfl
    | error e => cases held
  | _ => exact same q held

/-- A call that goes on waiting, writing or returning is accounted for as before,
as long as it is told `Ok` only for a durable position. -/
theorem Accounted.goes_on {safe : Frame → Prop} {queued : List Frame} {before position : Nat}
    {stopped : Prop} {c : Call} (known : Accounted safe queued before stopped c)
    (active : c.stage.active = some position) {stage : Stage} (same : ∀ p, stage.active = some p → p = position)
    (honest : ∀ p, stage = .returned (.ok p) → p = position ∧ position < before) :
    Accounted safe queued before stopped ⟨c.payload, stage⟩ where
  told p answer := by
    obtain ⟨rfl, durable⟩ := honest p answer
    exact known.durable _ active durable
  durable p still small := by
    obtain rfl := same p still
    exact known.durable _ active small
  queued p still large := by
    obtain rfl := same p still
    exact known.queued _ active large

section
variable {hash : Bytes → UInt64} {settings : GroupCommit} {directory : String}
  {s : State} {kept flying waiting : List Frame} {position i : Nat} {c : Call}

theorem Books.fits_waiting {disk : Disk} {shared : Shared}
    (books : Books hash disk shared kept flying waiting) : ∀ f ∈ waiting, f.Fits :=
  fun f inside => books.fits f (by simp [inside])

theorem Inv.restaged (inv : Inv hash s kept flying waiting) (there : s.calls[i]? = some c)
    (active : c.stage.active = some position) (idle : c.stage.commits = false) {stage : Stage}
    (still : stage.commits = false) (same : ∀ p, stage.active = some p → p = position)
    (honest : ∀ p, stage = .returned (.ok p) → p = position ∧ position < s.shared.durableBefore) :
    Inv hash (s.moved i c.payload (s.shared, stage)) kept flying waiting where
  books := inv.books
  crew := by
    cases inv.crew with
    | idle free empty nobody level =>
      refine .idle free empty (fun j d found => ?_) level
      rcases getElem?_set_cases found with ⟨-, rfl⟩ | ⟨-, before⟩
      · exact still
      · exact nobody j d before
    | led k leader taken working found commits alone lingers writes =>
      have other : k ≠ i := by
        rintro rfl
        rw [there] at found
        cases found
        rw [idle] at commits
        cases commits
      refine .led k leader taken working ?_ commits (fun j d found' commits' => ?_) lingers writes
      · exact (getElem?_set_ne other.symm).trans found
      · rcases getElem?_set_cases found' with ⟨-, rfl⟩ | ⟨-, before⟩
        · rw [still] at commits'
          cases commits'
        · exact alone j d before commits'
  ledger := by
    refine inv.ledger.set there fun p held => ?_
    rw [Stage.position_of_active active,
      Stage.position_eq same (fun p answer => (honest p answer).1) held]
  accounted := by
    intro j d found
    rcases getElem?_set_cases found with ⟨-, rfl⟩ | ⟨-, before⟩
    · exact (inv.accounted i c there).goes_on active same honest
    · exact inv.accounted j d before

/-- No group is in flight, and the caller that runs is the only one that may hold
the committer's role. -/
structure AtRest (s : State) (i : Nat) : Prop where
  working : s.shared.failure = none
  level : s.shared.writeOffset = s.shared.durableUpto
  alone : ∀ (j : Nat) (d : Call), s.calls[j]? = some d → d.stage.commits = true → j = i

theorem Inv.settle (inv : Inv hash s kept [] waiting) (there : s.calls[i]? = some c)
    (active : c.stage.active = some position) (rest : AtRest s i) {result : Shared × Stage}
    (ended : Ended hash position waiting s.shared result) :
    ∃ flying waiting', Inv hash (s.moved i c.payload result) kept flying waiting' := by
  have inside : i < s.calls.length := (List.getElem?_eq_some_iff.mp there).1
  have own : ∀ stage, (s.calls.set i ⟨c.payload, stage⟩)[i]? = some ⟨c.payload, stage⟩ :=
    fun stage => getElem?_set_self inside
  have alone : ∀ stage (j : Nat) (d : Call), (s.calls.set i ⟨c.payload, stage⟩)[j]? = some d →
      d.stage.commits = true → j = i := by
    intro stage j d found commits
    rcases getElem?_set_cases found with ⟨same, -⟩ | ⟨-, before⟩
    · exact same
    · exact rest.alone j d before commits
  have ledger : ∀ stage, (∀ p, stage.position = some p → p = position) →
      Ledger (s.calls.set i ⟨c.payload, stage⟩) s.shared.nextPosition := by
    intro stage same
    refine inv.ledger.set there fun p held => ?_
    rw [Stage.position_of_active active, same p held]
  have accounted : ∀ stage queued, queued = waiting →
      (∀ p, stage.active = some p → p = position) →
      (∀ p, stage = .returned (.ok p) → p = position ∧ position < s.shared.durableBefore) →
      ∀ (j : Nat) (d : Call), (s.calls.set i ⟨c.payload, stage⟩)[j]? = some d →
        Accounted (Safe s.reclaims kept) queued s.shared.durableBefore
          (s.shared.failure ≠ none) d := by
    rintro stage queued rfl same honest j d found
    rcases getElem?_set_cases found with ⟨-, rfl⟩ | ⟨-, before⟩
    · exact (inv.accounted i c there).goes_on active same honest
    · exact inv.accounted j d before
  cases ended with
  | lingers =>
    refine ⟨[], waiting, { inv.books with }, ?_, ledger _ (by simp [Stage.position, Stage.active]),
      accounted _ _ rfl (by simp [Stage.active]) (by simp)⟩
    exact .led i _ rfl rest.working (own _) rfl (alone _)
      (fun p h => ⟨rfl, rest.level⟩) (fun p take offset handle h => by cases h)
  | yields frames result honest =>
    have told : ∀ p, Stage.returned result = .returned (.ok p) →
        p = position ∧ position < s.shared.durableBefore := by
      intro p h
      exact honest p (Stage.returned.inj h)
    refine ⟨[], waiting, { inv.books with }, ?_,
      ledger _ (fun p held => Stage.position_eq (by simp [Stage.active])
        (fun p h => (told p h).1) held),
      accounted _ _ rfl (by simp [Stage.active]) told⟩
    refine .idle rfl rfl (fun j d found => ?_) (fun _ => rest.level)
    rcases getElem?_set_cases found with ⟨-, rfl⟩ | ⟨other, before⟩
    · rfl
    · cases commits : d.stage.commits with
      | false => rfl
      | true => exact absurd (rest.alone j d before commits) other
  | writes k frames statistics =>
    have parts : waiting.take k ++ waiting.drop k = waiting := take_append_drop k waiting
    refine ⟨waiting.take k, waiting.drop k, { inv.books with
        pending := rfl
        fits := by
          rw [parts]
          exact inv.books.fits
        rising := by
          rw [parts]
          exact inv.books.rising
        ahead := by
          rw [parts]
          exact inv.books.ahead
        assigned := by
          rw [parts]
          exact inv.books.assigned },
      ?_, ledger _ (by simp [Stage.position, Stage.active]),
      accounted _ _ parts (by simp [Stage.active]) (by simp)⟩
    refine .led i _ rfl rest.working (own _) rfl (alone _) (fun p h => by cases h)
      (fun p take offset handle h => ?_)
    cases h
    exact ⟨rfl, rest.level, rfl, congrArg (· + _) rest.level⟩

theorem Crew.of_free {shared : Shared} {calls : List Call} (crew : Crew hash shared calls flying)
    (free : shared.committing = false) :
    flying = [] ∧ (∀ (j : Nat) (d : Call), calls[j]? = some d → d.stage.commits = false) ∧
      (shared.failure = none → shared.writeOffset = shared.durableUpto) := by
  cases crew with
  | idle _ empty nobody level => exact ⟨empty, nobody, level⟩
  | led _ _ taken => simp [free] at taken

theorem Crew.of_commits {shared : Shared} {calls : List Call} (crew : Crew hash shared calls flying)
    (there : calls[i]? = some c) (commits : c.stage.commits = true) : shared.committing = true ∧ shared.failure = none ∧
    (∀ (j : Nat) (d : Call), calls[j]? = some d → d.stage.commits = true → j = i) ∧
    (∀ p, c.stage = .lingering p → flying = [] ∧ shared.writeOffset = shared.durableUpto) ∧
    (∀ p take offset handle, c.stage = .writing p take offset handle →
      take = encodeFrames hash shared.headerChecksummed flying ∧ offset = shared.durableUpto ∧
      handle = shared.file ∧ shared.writeOffset = shared.durableUpto + take.length) := by
  cases crew with
  | idle _ _ nobody => simp [nobody i c there] at commits
  | led k leader taken working found _ alone lingers writes =>
    obtain rfl := alone i c there commits
    rw [there] at found
    cases found
    exact ⟨taken, working, alone, lingers, writes⟩

theorem Crew.push {shared : Shared} {calls : List Call} (crew : Crew hash shared calls flying)
    (idle : c.stage.commits = false) : Crew hash shared (calls ++ [c]) flying := by
  cases crew with
  | idle free empty nobody level =>
    refine .idle free empty (fun j d found => ?_) level
    rcases getElem?_push_cases found with ⟨-, rfl⟩ | ⟨-, before⟩
    · exact idle
    · exact nobody j d before
  | led k leader taken working found commits alone lingers writes =>
    refine .led k leader taken working ?_ commits (fun j d found' commits' => ?_) lingers writes
    · exact getElem?_append_left (List.getElem?_eq_some_iff.mp found).1 ▸ found
    · rcases getElem?_push_cases found' with ⟨-, rfl⟩ | ⟨-, before⟩
      · rw [idle] at commits'
        cases commits'
      · exact alone j d before commits'

theorem Inv.wake (inv : Inv hash s kept flying waiting) (there : s.calls[i]? = some c)
    (parked : c.stage = .parked position) :
    ∃ flying' waiting', Inv hash (s.moved i c.payload (waitLoop settings position s.shared)) kept flying' waiting' := by
  have active : c.stage.active = some position := by simp [parked, Stage.active]
  have idle : c.stage.commits = false := by simp [parked, Stage.commits]
  rcases @waitLoop_ended hash settings s.shared waiting position inv.books.pending
    inv.books.fits_waiting with ⟨result, honest, answered⟩ | stays | ⟨free, working, ended⟩
  · rw [answered]
    refine ⟨flying, waiting, inv.restaged there active idle rfl (by simp [Stage.active]) ?_⟩
    intro p answer
    exact honest p (Stage.returned.inj answer)
  · rw [stays]
    exact ⟨flying, waiting, inv.restaged there active idle rfl (by simp [Stage.active]) (by simp)⟩
  · obtain ⟨rfl, nobody, level⟩ := inv.crew.of_free free
    refine inv.settle there active ⟨working, level working, fun j d found commits => ?_⟩ ended
    simp [nobody j d found] at commits

theorem Inv.leads (inv : Inv hash s kept flying waiting) (there : s.calls[i]? = some c)
    (lingers : c.stage = .lingering position) :
    ∃ flying' waiting', Inv hash (s.moved i c.payload (commitLoop settings position s.shared))
      kept flying' waiting' := by
  have active : c.stage.active = some position := by simp [lingers, Stage.active]
  obtain ⟨taken, working, alone, lingering, -⟩ :=
    inv.crew.of_commits there (by simp [lingers, Stage.commits])
  obtain ⟨rfl, level⟩ := lingering position lingers
  have ended := @commitLoop_ended hash settings s.shared waiting position inv.books.pending
    inv.books.fits_waiting
  rw [← taken] at ended
  exact inv.settle there active ⟨working, level, alone⟩ ended

theorem Inv.pushed (inv : Inv hash s kept flying waiting)
    {payload : Bytes} (short : payload.length < 2 ^ 32)
    (room : s.shared.nextPosition + 1 < 2 ^ 64) :
    Inv hash { s with
        shared := { s.shared with
          nextPosition := s.shared.nextPosition + 1
          pending := s.shared.pending ++
            encodeFrame hash s.shared.nextPosition payload s.shared.headerChecksummed
          pendingFrames := s.shared.pendingFrames + 1 }
        calls := s.calls ++ [⟨payload, .parked s.shared.nextPosition⟩] }
      kept flying (waiting ++ [⟨s.shared.nextPosition, payload⟩]) where
  books := { inv.books with
    pending := by
      simp [encodeFrames_append, encodeFrames_cons, inv.books.pending]
    fits := by
      intro f inside
      simp only [← append_assoc, mem_append, mem_singleton] at inside
      rcases inside with ((old | old) | old) | rfl
      · exact inv.books.fits f (by simp [old])
      · exact inv.books.fits f (by simp [old])
      · exact inv.books.fits f (by simp [old])
      · exact ⟨by simp only; omega, short⟩
    rising := by
      rw [← append_assoc, pairwise_append]
      refine ⟨inv.books.rising, pairwise_singleton _ _, ?_⟩
      intro f old g new
      obtain rfl := mem_singleton.mp new
      exact inv.books.assigned f old
    ahead := by
      intro f inside
      rw [← append_assoc, mem_append, mem_singleton] at inside
      rcases inside with old | rfl
      · exact inv.books.ahead f old
      · exact inv.books.below
    assigned := by
      intro f inside
      rw [← append_assoc, mem_append, mem_singleton] at inside
      rcases inside with old | rfl
      · exact Nat.lt_succ_of_lt (inv.books.assigned f old)
      · exact Nat.lt_succ_self _
    below := Nat.le_succ_of_le inv.books.below }
  crew := by
    cases inv.crew.push (c := ⟨payload, .parked s.shared.nextPosition⟩) rfl with
    | idle free empty nobody level => exact .idle free empty nobody level
    | led k leader taken stopped found commits alone lingers writes =>
      exact .led k leader taken stopped found commits alone lingers writes
  ledger := by
    refine inv.ledger.push (Nat.le_succ _) fun p held => ?_
    obtain rfl : s.shared.nextPosition = p := Option.some.inj held
    exact ⟨le_refl _, Nat.lt_succ_self _⟩
  accounted := by
    intro j d found
    rcases getElem?_push_cases found with ⟨-, rfl⟩ | ⟨-, before⟩
    · refine ⟨(fun p answer => by cases answer), fun p held small => ?_, fun p held _ => .inr ?_⟩
      · obtain rfl : s.shared.nextPosition = p := Option.some.inj held
        have below := inv.books.below
        simp only at small
        omega
      · obtain rfl : s.shared.nextPosition = p := Option.some.inj held
        simp
    · refine (inv.accounted j d before).mono (fun _ h => h) (le_refl _) (fun h => ⟨h, rfl⟩) ?_ ?_
      · intro f queued small
        exact absurd (inv.books.ahead f queued) (by simp only at small; omega)
      · intro f queued _
        rw [← append_assoc]
        exact .inr (mem_append_left _ queued)

theorem Books.upto_le {disk : Disk} {shared : Shared} (books : Books hash disk shared kept flying waiting) :
    shared.durableUpto ≤ (disk.read shared.file).length := by
  have same := congrArg List.length books.durable
  rw [← books.upto, length_take] at same
  omega

theorem Books.synced_bounds {disk : Disk} {shared : Shared}
    (books : Books hash disk shared kept flying waiting) (offset : Nat) :
    let before := (synced (encodeFrames hash shared.headerChecksummed flying) offset
      shared).durableBefore
    shared.durableBefore ≤ before ∧ before ≤ shared.nextPosition ∧
      (∀ f ∈ flying, f.position < before) ∧ (∀ f ∈ waiting, before ≤ f.position) := by
  have fits : ∀ f ∈ flying, f.Fits := fun f inside => books.fits f (by simp [inside])
  simp only [synced, lastPositionIn_encodeFrames flying fits]
  obtain ⟨ahead, across⟩ := And.intro books.rising books.ahead
  rw [pairwise_append] at ahead
  cases last : flying.getLast? with
  | none =>
    obtain rfl := getLast?_eq_none_iff.mp last
    exact ⟨le_refl _, books.below, by simp, fun f inside => books.ahead f (by simp [inside])⟩
  | some f =>
    have member : f ∈ flying := mem_of_getLast? last
    have highest : ∀ g ∈ flying, g.position ≤ f.position := by
      obtain ⟨front, rfl⟩ := getLast?_eq_some_iff.mp last
      intro g inside
      rcases mem_append.mp inside with early | final
      · exact Nat.le_of_lt ((pairwise_append.mp ahead.1).2.2 g early f (by simp))
      · rw [mem_singleton.mp final]
    have assigned := books.assigned f (by simp [member])
    have below := books.below
    simp only [Option.map_some]
    refine ⟨by omega, by omega, fun g inside => ?_, fun g inside => ?_⟩
    · have := highest g inside
      omega
    · have first := books.ahead g (by simp [inside])
      have second := ahead.2.2 f member g inside
      omega

variable (inv : Inv hash s kept flying waiting)
include inv

theorem Inv.synced (there : s.calls[i]? = some c)
    {take : Bytes} {offset handle : Nat} (writes : c.stage = .writing position take offset handle) :
    Inv hash { s with
        disk := s.disk.write handle offset take
        shared := synced take offset s.shared
        calls := s.calls.set i ⟨c.payload, .lingering position⟩ }
      (kept ++ flying) [] waiting := by
  have active : c.stage.active = some position := by simp [writes, Stage.active]
  obtain ⟨taken, working, alone, -, writing⟩ :=
    inv.crew.of_commits there (by simp [writes, Stage.commits])
  obtain ⟨rfl, rfl, rfl, level⟩ := writing _ _ _ _ writes
  have inside : i < s.calls.length := (List.getElem?_eq_some_iff.mp there).1
  obtain ⟨grows, below, behind, ahead⟩ := inv.books.synced_bounds s.shared.durableUpto
  have upto : max s.shared.durableUpto (s.shared.durableUpto +
      (encodeFrames hash s.shared.headerChecksummed flying).length) = s.shared.durableUpto +
      (encodeFrames hash s.shared.headerChecksummed flying).length := by omega
  refine ⟨⟨inv.books.named, ?_, ?_, ?_, inv.books.pending, ?_, ?_, ?_, ?_, below⟩, ?_, ?_, ?_⟩
  · simpa [Disk.write, Wal.synced] using inv.books.opened
  · simp only [Wal.synced, upto, Disk.read_write _ _ inv.books.opened]
    rw [take_writeAt_end inv.books.upto_le, inv.books.durable, encodeFrames_append,
      append_assoc]
  · simp only [Wal.synced, upto]
    rw [inv.books.upto, encodeFrames_append]
    simp only [length_append]
    omega
  · simpa using inv.books.fits
  · exact (pairwise_append.mp inv.books.rising).2.1
  · simpa using ahead
  · intro f queued
    exact inv.books.assigned f (mem_append_right _ (by simpa using queued))
  · refine .led i _ taken working (getElem?_set_self inside) rfl (fun j d found commits => ?_)
      (fun p h => ⟨rfl, ?_⟩) (fun p take offset handle h => by cases h)
    · rcases getElem?_set_cases found with ⟨same, -⟩ | ⟨-, before⟩
      · exact same
      · exact alone j d before commits
    · simp only [Wal.synced, upto, level]
  · exact inv.ledger.set there fun p held => by
      rw [Stage.position_of_active active]
      exact held
  · have moves : ∀ d, Accounted (Safe s.reclaims kept) (flying ++ waiting) s.shared.durableBefore
        (s.shared.failure ≠ none) d →
        Accounted (Safe s.reclaims (kept ++ flying)) ([] ++ waiting)
          (Wal.synced (encodeFrames hash s.shared.headerChecksummed flying) s.shared.durableUpto
            s.shared).durableBefore (s.shared.failure ≠ none) d := by
      intro d known
      refine known.mono ?_ grows (fun stopped => absurd working stopped) ?_ ?_
      · rintro f (old | gone)
        · exact .inl (mem_append_left _ old)
        · exact .inr gone
      · intro f queued small
        rcases mem_append.mp queued with flew | waits
        · exact .inl (mem_append_right _ flew)
        · exact absurd (ahead f waits) (by omega)
      · intro f queued large
        rcases mem_append.mp queued with flew | waits
        · exact absurd (behind f flew) (by omega)
        · exact .inr (by simpa using waits)
    intro j d found
    rcases getElem?_set_cases found with ⟨-, rfl⟩ | ⟨-, before⟩
    · exact (moves c (inv.accounted i c there)).goes_on active (by simp [Stage.active]) (by simp)
    · exact moves d (inv.accounted j d before)

theorem Inv.written (there : s.calls[i]? = some c)
    {take : Bytes} {offset handle : Nat} (writes : c.stage = .writing position take offset handle) :
    ∃ flying' waiting', Inv hash
      ({ s with disk := s.disk.write handle offset take }.moved i c.payload
        (afterWrite settings position take offset s.shared)) (kept ++ flying) flying' waiting' := by
  have inside : i < s.calls.length := (List.getElem?_eq_some_iff.mp there).1
  have mid := inv.synced there writes
  have own : (s.calls.set i ⟨c.payload, .lingering position⟩)[i]? =
      some ⟨c.payload, .lingering position⟩ := getElem?_set_self inside
  unfold afterWrite
  simp only
  split
  · rename_i done
    obtain ⟨taken, working, alone, lingering, -⟩ := mid.crew.of_commits own rfl
    obtain ⟨-, level⟩ := lingering position rfl
    obtain ⟨flying', waiting', after⟩ := mid.settle own rfl ⟨working, level, alone⟩
      (.yields (Wal.synced take offset s.shared).pendingFrames (.ok position) fun p answer => by
        cases answer
        exact ⟨rfl, done.1⟩)
    refine ⟨flying', waiting', ?_⟩
    simpa only [State.moved, set_set] using after
  · obtain ⟨flying', waiting', after⟩ := @Inv.leads hash settings _ _ _ _ position i _ mid own rfl
    refine ⟨flying', waiting', ?_⟩
    simpa only [State.moved, set_set] using after

theorem Inv.refused (there : s.calls[i]? = some c)
    (commits : c.stage.commits = true) (error : String) :
    Inv hash (s.moved i c.payload (afterRefusal error s.shared)) kept [] [] := by
  obtain ⟨-, -, alone, -, -⟩ := inv.crew.of_commits there commits
  refine ⟨{ inv.books with
      pending := rfl
      fits := fun f inside => inv.books.fits f (by simp_all)
      rising := .nil
      ahead := by simp
      assigned := by simp }, ?_, ?_, ?_⟩
  · refine .idle rfl rfl (fun j d found => ?_) (fun stopped => by cases stopped)
    rcases getElem?_set_cases found with ⟨-, rfl⟩ | ⟨other, before⟩
    · rfl
    · cases commits' : d.stage.commits with
      | false => rfl
      | true => exact absurd (alone j d before commits') other
  · exact inv.ledger.set there fun p held => by cases held
  · intro j d found
    rcases getElem?_set_cases found with ⟨-, rfl⟩ | ⟨-, before⟩
    · exact ⟨(fun p answer => by cases answer), (fun p held => by cases held),
        (fun p held => by cases held)⟩
    · refine (inv.accounted j d before).mono (fun _ safe => safe) (le_refl _)
        (fun _ => ⟨by simp [afterRefusal, State.moved], rfl⟩) ?_ ?_
      · intro f queued small
        exact absurd (inv.books.ahead f queued) (by simp [afterRefusal, State.moved] at small; omega)
      · intro f _ _
        exact .inl (by simp [afterRefusal, State.moved])

theorem Inv.device (there : s.calls[i]? = some c)
    {take part : Bytes} {offset handle : Nat} (writes : c.stage = .writing position take offset handle) :
    Inv hash { s with disk := s.disk.write handle offset part } kept flying waiting := by
  obtain ⟨-, -, -, -, writing⟩ := inv.crew.of_commits there (by simp [writes, Stage.commits])
  obtain ⟨-, rfl, rfl, -⟩ := writing _ _ _ _ writes
  refine ⟨{ inv.books with
      opened := by simpa [Disk.write] using inv.books.opened
      durable := ?_ }, inv.crew, inv.ledger, inv.accounted⟩
  rw [Disk.read_write _ _ inv.books.opened, take_writeAt inv.books.upto_le, inv.books.durable]

omit inv

theorem Books.planRewrite_tail {disk : Disk} {shared : Shared} {fault : Option Fault}
    {through dropped : Nat} {tail : Bytes} (books : Books hash disk shared kept flying waiting)
    (planned : planRewrite hash settings directory through fault disk shared = .ok (some (dropped, tail))) :
    tail = encodeFrames hash true (kept.dropWhile fun f => f.position ≤ through) := by
  have plan := planRewrite_ok books.durable books.upto
    (fun f inside => books.fits f (by simp [inside])) planned
  dsimp only at plan
  split at plan
  · exact (Prod.mk.inj (Option.some.inj plan)).2
  · cases plan

theorem Books.rewrite_cases {disk : Disk} {shared : Shared} {fault : Option Fault} {through : Nat}
    (books : Books hash disk shared kept flying waiting) :
    (∃ result, rewrite hash settings directory through fault disk shared =
      (disk, shared, result)) ∨
    (replaces hash settings directory through fault disk shared = true ∧
      ∃ failure result, (shared.failure ≠ none → failure ≠ none) ∧
        rewrite hash settings directory through fault disk shared =
          (disk.replace (magicOf true ++ encodeFrames hash true
              (kept.dropWhile fun f => f.position ≤ through)),
            { shared with
              file := disk.inodes.length
              writeOffset := (magicOf true ++ encodeFrames hash true
                (kept.dropWhile fun f => f.position ≤ through)).length
              durableUpto := (magicOf true ++ encodeFrames hash true
                (kept.dropWhile fun f => f.position ≤ through)).length
              headerChecksummed := true
              failure := failure }, result)) := by
  unfold rewrite replaces
  cases planned : planRewrite hash settings directory through fault disk shared with
  | error e => exact .inl ⟨_, rfl⟩
  | ok plan =>
    cases plan with
    | none => exact .inl ⟨_, rfl⟩
    | some pair =>
      obtain ⟨dropped, tail⟩ := pair
      obtain rfl := books.planRewrite_tail planned
      cases fault with
      | none =>
        refine .inr ⟨rfl, shared.failure, .ok dropped, id, ?_⟩
        simp [Disk.replace, magicOf]
      | some fault =>
        by_cases last : fault.step = .parent
        · refine .inr ⟨by simp [last], some (fault.message directory),
            .error (.unavailable (fault.message directory)), by simp, ?_⟩
          simp only [last, if_true]
          simp [Disk.replace, magicOf]
        · exact .inl ⟨.error (.unavailable (fault.message directory)), by simp [last]⟩

theorem mem_dropWhile_of_not {α : Type*} {p : α → Bool} {xs : List α} {x : α} (inside : x ∈ xs)
    (fails : p x = false) : x ∈ xs.dropWhile p := by
  have parts := @takeWhile_append_dropWhile _ p xs
  rw [← parts] at inside
  rcases mem_append.mp inside with front | back
  · rw [mem_takeWhile_imp front] at fails
    cases fails
  · exact back

theorem Inv.reclaims (inv : Inv hash s kept flying waiting) {reclaims : List Reclaim} (wanted : Nat)
    (more : ∀ p, Reclaimed s.reclaims p → Reclaimed reclaims p) :
    Inv hash { s with
      shared := { s.shared with reclaimWanted := wanted }, reclaims := reclaims }
      kept flying waiting where
  books := { inv.books with }
  crew := by
    cases inv.crew with
    | idle free empty nobody level => exact .idle free empty nobody level
    | led k leader taken working found commits alone lingers writes =>
      exact .led k leader taken working found commits alone lingers writes
  ledger := inv.ledger
  accounted j d found := by
    refine (inv.accounted j d found).mono ?_ (le_refl _) (fun h => ⟨h, rfl⟩) ?_ ?_
    · rintro f (old | gone)
      · exact .inl old
      · exact .inr (more _ gone)
    · intro f queued small
      exact absurd (inv.books.ahead f queued) (by simp only at small; omega)
    · exact fun f queued _ => .inr queued

/-- A rewrite with nobody committing keeps every frame above the reclaimed range. A
version 1 file becomes a version 2 file, so nothing may be pending then. -/
theorem Inv.rewrote (inv : Inv hash s kept flying waiting) (free : s.shared.committing = false)
    {through : Nat} {fault : Option Fault} {reclaims : List Reclaim} (wanted : Nat)
    (unmixed : replaces hash settings directory through fault s.disk s.shared = true →
      s.shared.headerChecksummed = true ∨ s.shared.pending = [])
    (more : ∀ p, Reclaimed s.reclaims p → Reclaimed reclaims p)
    (ran : ∀ p, p ≤ through → Reclaimed reclaims p) :
    let result := rewrite hash settings directory through fault s.disk
      { s.shared with reclaimWanted := wanted }
    ∃ kept', Inv hash { s with disk := result.1, shared := result.2.1, reclaims := reclaims }
      kept' flying waiting ∧ ∀ f ∈ kept, Safe reclaims kept' f := by
  have books : Books hash s.disk { s.shared with reclaimWanted := wanted } kept flying waiting :=
    { inv.books with }
  rcases @Books.rewrite_cases hash settings directory kept flying waiting s.disk _ fault through
    books with ⟨result, same⟩ | ⟨renamed, failure, result, stops, replaced⟩
  · simp only [same]
    exact ⟨kept, inv.reclaims wanted more, fun f inside => .inl inside⟩
  · obtain ⟨rfl, nobody, -⟩ := inv.crew.of_free free
    have version : s.shared.headerChecksummed = true ∨ waiting = [] := by
      rcases unmixed renamed with same | none
      · exact .inl same
      · rw [inv.books.pending, encodeFrames_eq_nil] at none
        exact .inr none
    have stays : ∀ f ∈ kept, Safe reclaims (kept.dropWhile fun f => f.position ≤ through) f := by
      intro f old
      by_cases covered : f.position ≤ through
      · exact .inr (ran _ covered)
      · exact .inl (mem_dropWhile_of_not old (by simpa using covered))
    simp only [replaced]
    refine ⟨kept.dropWhile fun f => f.position ≤ through,
      ⟨⟨rfl, ?_, ?_, rfl, ?_, ?_, inv.books.rising, inv.books.ahead, inv.books.assigned,
        inv.books.below⟩, .idle free rfl nobody (fun _ => rfl), inv.ledger, ?_⟩, stays⟩
    · simp [Disk.replace]
    · simp only [Disk.read_replace, take_length]
    · rcases version with same | rfl
      · simpa [same] using inv.books.pending
      · simpa using inv.books.pending
    · intro f inside
      refine inv.books.fits f ?_
      rcases mem_append.mp inside with old | queued
      · exact mem_append_left _ (dropWhile_subset _ old)
      · exact mem_append_right _ queued
    · intro j d found
      refine (inv.accounted j d found).mono ?_ (le_refl _) (fun h => ⟨stops h, rfl⟩) ?_ ?_
      · rintro f (old | gone)
        · exact stays f old
        · exact .inr (more _ gone)
      · intro f queued small
        exact absurd (inv.books.ahead f queued) (by simp only at small; omega)
      · exact fun f queued _ => .inr queued

theorem reclaimed_push {reclaims : List Reclaim} {r : Reclaim} {p : Nat}
    (already : Reclaimed reclaims p) : Reclaimed (reclaims ++ [r]) p := by
  obtain ⟨r', inside, covers⟩ := already
  exact ⟨r', mem_append_left _ inside, covers⟩

theorem reclaimed_set {reclaims : List Reclaim} {j through p : Nat}
    {result : Except WalError Nat} (there : reclaims[j]? = some ⟨through, none⟩)
    (already : Reclaimed reclaims p) : Reclaimed (reclaims.set j ⟨through, some result⟩) p := by
  obtain ⟨r, inside, covers, ran⟩ := already
  obtain ⟨k, found⟩ := mem_iff_getElem?.mp inside
  have other : j ≠ k := by
    rintro rfl
    rw [there] at found
    cases found
    cases ran
  exact ⟨r, mem_iff_getElem?.mpr ⟨k, (getElem?_set_ne other).trans found⟩, covers, ran⟩

theorem reclaimed_by {reclaims : List Reclaim} {through p : Nat} {result : Except WalError Nat}
    (covered : p ≤ through) (inside : ⟨through, some result⟩ ∈ reclaims) : Reclaimed reclaims p :=
  ⟨_, inside, covered, rfl⟩

end

/-- A reclamation whose turn it is does not turn a version 1 file into a version 2
file while frames are pending. -/
def Unmixed (hash : Bytes → UInt64) (settings : GroupCommit) (directory : String) (s : State)
    (through : Nat) (fault : Option Fault) : Prop :=
  s.shared.committing = false →
    replaces hash settings directory through fault s.disk s.shared = true →
    s.shared.headerChecksummed = true ∨ s.shared.pending = []

instance (hash : Bytes → UInt64) (settings : GroupCommit) (directory : String) (s : State)
    (through : Nat) (fault : Option Fault) :
    Decidable (Unmixed hash settings directory s through fault) :=
  inferInstanceAs (Decidable (_ → _ → _ ∨ _))

/-- The steps under which a log keeps one kind of frame: a payload fits its length
field, and no reclamation mixes the versions. -/
def KeepsOneKind (hash : Bytes → UInt64) (settings : GroupCommit) (directory : String)
    (s : State) : Event → Prop
  | .append payload => payload.length < 2 ^ 32
  | .reclaim through fault => Unmixed hash settings directory s through fault
  | .reclaimWake j fault =>
      ∀ r ∈ s.reclaims[j]?, Unmixed hash settings directory s r.through fault
  | _ => True

instance (hash : Bytes → UInt64) (settings : GroupCommit) (directory : String) (s : State)
    (e : Event) : Decidable (KeepsOneKind hash settings directory s e) :=
  match e with
  | .append payload => inferInstanceAs (Decidable (payload.length < 2 ^ 32))
  | .reclaim through fault =>
      inferInstanceAs (Decidable (Unmixed hash settings directory s through fault))
  | .reclaimWake j fault => inferInstanceAs
      (Decidable (∀ r ∈ s.reclaims[j]?, Unmixed hash settings directory s r.through fault))
  | .wake _ | .lingered _ | .device _ _ | .written _ | .refused _ _ | .reclaimTimedOut _ =>
      inferInstanceAs (Decidable True)

section
variable {hash : Bytes → UInt64} {settings : GroupCommit} {directory : String}

/-- One step keeps the books, and every frame it had on disk unless a reclamation
covers it. -/
theorem Inv.step {s t : State} {e : Event} {kept flying waiting : List Frame}
    (inv : Inv hash s kept flying waiting) (allowed : KeepsOneKind hash settings directory s e)
    (next : step hash settings directory s e = some t) : ∃ kept' flying' waiting', Inv hash t kept' flying' waiting' ∧
      ∀ f ∈ kept, Safe t.reclaims kept' f := by
  have all : ∀ {reclaims : List Reclaim}, ∀ f ∈ kept, Safe reclaims kept f :=
    fun f inside => .inl inside
  cases e with
  | append payload =>
    simp only [Wal.step, append, bind, Option.bind] at next
    split at next
    · cases next
    · rename_i result entered
      cases next
      split at entered
      · cases entered
        refine ⟨kept, flying, waiting, ⟨inv.books, inv.crew.push rfl,
          inv.ledger.push (le_refl _) (fun p held => by cases held), fun j d found => ?_⟩, all⟩
        rcases getElem?_push_cases found with ⟨-, rfl⟩ | ⟨-, before⟩
        · exact ⟨(fun p answer => by cases answer), (fun p held => by cases held),
            (fun p held => by cases held)⟩
        · exact inv.accounted j d before
      · split at entered
        · rename_i room
          cases entered
          have mid := inv.pushed allowed room
          obtain ⟨flying', waiting', after⟩ := @Inv.wake hash settings _ _ _ _
            s.shared.nextPosition s.calls.length _ mid getElem?_concat_length rfl
          refine ⟨kept, flying', waiting', ?_, all⟩
          simpa [State.moved] using after
        · cases entered
  | wake i =>
    simp only [Wal.step] at next
    split at next
    · rename_i payload position there
      cases next
      obtain ⟨flying', waiting', after⟩ := @Inv.wake hash settings _ _ _ _ position i _ inv there rfl
      exact ⟨kept, flying', waiting', after, all⟩
    · cases next
  | lingered i =>
    simp only [Wal.step] at next
    split at next
    · rename_i payload position there
      cases next
      obtain ⟨flying', waiting', after⟩ := @Inv.leads hash settings _ _ _ _ position i _ inv there rfl
      exact ⟨kept, flying', waiting', after, all⟩
    · cases next
  | device i part =>
    simp only [Wal.step] at next
    split at next
    · rename_i there
      split at next
      · cases next
        exact ⟨kept, flying, waiting, inv.device there rfl, all⟩
      · cases next
    · cases next
  | written i =>
    simp only [Wal.step] at next
    split at next
    · rename_i payload position take offset handle there
      cases next
      obtain ⟨flying', waiting', after⟩ := @Inv.written hash settings _ _ _ _ position i _ inv there
        take offset handle rfl
      exact ⟨kept ++ flying, flying', waiting', after,
        fun f inside => .inl (mem_append_left _ inside)⟩
    · cases next
  | refused i error =>
    simp only [Wal.step] at next
    split at next
    · rename_i payload _ _ _ _ there
      cases next
      exact ⟨kept, [], [], inv.refused there rfl error, all⟩
    · cases next
  | reclaim through fault =>
    simp only [Wal.step, reclaimTurn, Nat.add_sub_cancel] at next
    split at next
    · cases next
      exact ⟨kept, flying, waiting, inv.reclaims _ (fun p => reclaimed_push), all⟩
    · rename_i free
      cases next
      have free : s.shared.committing = false := by simpa using free
      obtain ⟨kept', after, stays⟩ := inv.rewrote free s.shared.reclaimWanted (allowed free)
        (fun p => reclaimed_push)
        (fun p covered => reclaimed_by covered (mem_append_right _ mem_cons_self))
      exact ⟨kept', flying, waiting, after, stays⟩
  | reclaimWake j fault =>
    simp only [Wal.step, reclaimTurn] at next
    split at next
    · rename_i through there
      split at next
      · cases next
        exact ⟨kept, flying, waiting, inv, all⟩
      · rename_i free
        cases next
        have free : s.shared.committing = false := by simpa using free
        have inside : j < s.reclaims.length := (List.getElem?_eq_some_iff.mp there).1
        obtain ⟨kept', after, stays⟩ := inv.rewrote free (s.shared.reclaimWanted - 1)
          (allowed _ there free) (fun p => reclaimed_set there)
          (fun p covered => reclaimed_by covered (mem_set inside _))
        exact ⟨kept', flying, waiting, after, stays⟩
    · cases next
  | reclaimTimedOut j =>
    simp only [Wal.step] at next
    split at next
    · rename_i through there
      cases next
      exact ⟨kept, flying, waiting, inv.reclaims _ (fun p => reclaimed_set there), all⟩
    · cases next

end
end TallyOwl.Wal
