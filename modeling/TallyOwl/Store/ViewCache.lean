import TallyOwl.Lib.Runs
import Mathlib.Algebra.Ring.Nat

/-! A decoded view that is kept with the epoch it was read at (`ViewCache` of `catalog.rs`). Readers
and writers take their steps in any order. The epoch is 64 bits wide and wraps. -/
open List

namespace TallyOwl.ViewCache
open Lib

variable {ω τ : Type}

def epochOf (turns : ℕ) : ℕ := turns % 2 ^ 64

/-- A view and the epoch it is kept under. The count of invalidations at the load of that epoch is
there for the proofs, and nothing reads it. -/
structure Held (τ : Type) where
  epoch : ℕ
  loadedAt : ℕ
  view : τ
  deriving DecidableEq

inductive Stage (τ : Type) where
  | began
  | loaded (epoch loadedAt : ℕ)
  | missed (epoch loadedAt : ℕ)
  | fetched (held : Held τ)
  | returned (view : τ)
  | failed
  deriving DecidableEq

/-- One call of `get`, with the writes that were through before it began. -/
structure Reader (τ : Type) where
  owed : List (ℕ × ℕ)
  stage : Stage τ

/-- The writes in their order, the cache, and the calls. A write that is committed and not yet
invalidated is pending; one that is through has its place and the number of its invalidation. -/
structure Cache (ω τ : Type) where
  committed : List ω
  pending : List ℕ
  finished : List (ℕ × ℕ)
  turns : ℕ
  epoch : ℕ
  held : Option (Held τ)
  readers : List (Reader τ)

def Cache.new : Cache ω τ := ⟨[], [], [], 0, 0, none, []⟩

inductive Event (ω : Type) where
  | commit (write : ω)
  | invalidate (writer : ℕ)
  | invalidateFailed
  | get
  | load (reader : ℕ)
  | check (reader : ℕ)
  | read (reader : ℕ)
  | readFails (reader : ℕ)
  | store (reader : ℕ)

namespace Cache

def goes (s : Cache ω τ) (i : ℕ) (r : Reader τ) (stage : Stage τ) : Cache ω τ :=
  { s with readers := s.readers.set i { r with stage := stage } }

/-- `invalidate`. -/
def turn (s : Cache ω τ) : Cache ω τ :=
  { s with turns := s.turns + 1, epoch := (s.epoch + 1) % 2 ^ 64 }

def step (read : List ω → τ) (s : Cache ω τ) : Event ω → Option (Cache ω τ)
  | .commit write => some { s with
      committed := s.committed ++ [write]
      pending := s.pending ++ [s.committed.length] }
  | .invalidate writer => do
      let place ← s.pending[writer]?
      let s := { s with pending := s.pending.eraseIdx writer, finished := s.finished ++ [(place, s.turns + 1)] }
      some s.turn
  | .invalidateFailed => some s.turn
  | .get => some { s with readers := s.readers ++ [⟨s.finished, .began⟩] }
  | .load i => do
      let r ← s.readers[i]?
      match r.stage with
      | .began => some (s.goes i r (.loaded s.epoch s.turns))
      | _ => none
  | .check i => do
      let r ← s.readers[i]?
      match r.stage, s.held with
      | .loaded epoch loadedAt, some held =>
          if held.epoch = epoch then some (s.goes i r (.returned held.view))
          else some (s.goes i r (.missed epoch loadedAt))
      | .loaded epoch loadedAt, none => some (s.goes i r (.missed epoch loadedAt))
      | _, _ => none
  | .read i => do
      let r ← s.readers[i]?
      match r.stage with
      | .missed epoch loadedAt => some (s.goes i r (.fetched ⟨epoch, loadedAt, read s.committed⟩))
      | _ => none
  | .readFails i => do
      let r ← s.readers[i]?
      match r.stage with
      | .missed _ _ => some (s.goes i r .failed)
      | _ => none
  | .store i => do
      let r ← s.readers[i]?
      match r.stage with
      | .fetched held => some ({ s with held := some held }.goes i r (.returned held.view))
      | _ => none

end Cache

def Reader.loaded (r : Reader τ) : Option (ℕ × ℕ) :=
  match r.stage with
  | .loaded epoch loadedAt => some (epoch, loadedAt)
  | _ => none

namespace Cache

/-- The kept view that a call finds under its epoch is less than 2^64 invalidations older. -/
def Recent (s : Cache ω τ) : Event ω → Prop
  | .check i => ∀ r ∈ s.readers[i]?, ∀ held ∈ s.held, ∀ x ∈ r.loaded,
      held.epoch = x.1 → x.2 < held.loadedAt + 2 ^ 64
  | _ => True

instance (s : Cache ω τ) (e : Event ω) : Decidable (s.Recent e) :=
  match e with
  | .check i => inferInstanceAs (Decidable (∀ r ∈ s.readers[i]?, _))
  | .commit _ | .invalidate _ | .invalidateFailed | .get | .load _ | .read _ | .readFails _ | .store _ =>
      inferInstanceAs (Decidable True)

/-- The view is of the writes up to some point, and all of these are before it. -/
def Reflects (read : List ω → τ) (s : Cache ω τ) (view : τ) (writes : ℕ × ℕ → Prop) : Prop :=
  ∃ seen ≤ s.committed.length, view = read (s.committed.take seen) ∧ ∀ x ∈ s.finished, writes x → x.1 < seen

end Cache

section
variable (read : List ω → τ)

/-- The view has every write that was through when its epoch was loaded. -/
structure Held.Sound (s : Cache ω τ) (held : Held τ) : Prop where
  epoch : held.epoch = epochOf held.loadedAt
  past : held.loadedAt ≤ s.turns
  view : s.Reflects read held.view fun x => x.2 ≤ held.loadedAt

/-- The epoch was loaded after all that the call owes was through. -/
structure Reader.Loaded (r : Reader τ) (s : Cache ω τ) (epoch loadedAt : ℕ) : Prop where
  epoch : epoch = epochOf loadedAt
  past : loadedAt ≤ s.turns
  owed : ∀ x ∈ r.owed, x.2 ≤ loadedAt

def Reader.StageSound (r : Reader τ) (s : Cache ω τ) : Prop :=
  match r.stage with
  | .began => ∀ x ∈ r.owed, x.2 ≤ s.turns
  | .loaded epoch loadedAt | .missed epoch loadedAt => r.Loaded s epoch loadedAt
  | .fetched held => r.Loaded s held.epoch held.loadedAt ∧ held.Sound read s
  | .returned view => s.Reflects read view fun x => x ∈ r.owed
  | .failed => True

structure Reader.Sound (r : Reader τ) (s : Cache ω τ) : Prop where
  finished : ∀ x ∈ r.owed, x ∈ s.finished
  stage : r.StageSound read s

structure Cache.Sound (s : Cache ω τ) : Prop where
  epoch : s.epoch = epochOf s.turns
  pending : ∀ place ∈ s.pending, place < s.committed.length
  finished : ∀ x ∈ s.finished, x.1 < s.committed.length ∧ x.2 ≤ s.turns
  held : ∀ held ∈ s.held, held.Sound read s
  readers : ∀ r ∈ s.readers, r.Sound read s

/-- What a writer's step leaves: the writes so far, and the ones that are through, but for later ones. -/
structure Grows (s t : Cache ω τ) : Prop where
  committed : ∃ more, t.committed = s.committed ++ more
  turns : s.turns ≤ t.turns
  finished : ∀ x ∈ s.finished, x ∈ t.finished
  later : ∀ x ∈ t.finished, x ∈ s.finished ∨ s.turns < x.2

end

section
variable {read : List ω → τ} {s t : Cache ω τ}

theorem Cache.Reflects.grows {view : τ} {writes : ℕ × ℕ → Prop} (reflects : s.Reflects read view writes)
    (grows : Grows s t) (early : ∀ x, s.turns < x.2 → x ∉ s.finished → ¬ writes x) : t.Reflects read view writes := by
  obtain ⟨seen, short, rfl, all⟩ := reflects
  obtain ⟨more, longer⟩ := grows.committed
  refine ⟨seen, ?_, ?_, fun x inside counts => ?_⟩
  · rw [longer, length_append]
    omega
  · rw [longer, take_append_of_le_length short]
  · by_cases old : x ∈ s.finished
    · exact all x old counts
    · exact absurd counts (early x ((grows.later x inside).resolve_left old) old)

theorem Held.Sound.grows {held : Held τ} (sound : held.Sound read s) (grows : Grows s t) : held.Sound read t := by
  refine ⟨sound.epoch, Nat.le_trans sound.past grows.turns, sound.view.grows grows fun x later _ => ?_⟩
  have past := sound.past
  omega

theorem Reader.Loaded.grows {r : Reader τ} {epoch loadedAt : ℕ} (loaded : r.Loaded s epoch loadedAt)
    (grows : Grows s t) : r.Loaded t epoch loadedAt :=
  ⟨loaded.epoch, Nat.le_trans loaded.past grows.turns, loaded.owed⟩

theorem Reader.Sound.grows {r : Reader τ} (sound : r.Sound read s) (grows : Grows s t) : r.Sound read t := by
  refine ⟨fun x inside => grows.finished x (sound.finished x inside), ?_⟩
  have stage := sound.stage
  unfold Reader.StageSound at stage ⊢
  split at stage
  · exact fun x inside => Nat.le_trans (stage x inside) grows.turns
  · exact stage.grows grows
  · exact stage.grows grows
  · exact ⟨stage.1.grows grows, stage.2.grows grows⟩
  · exact stage.grows grows fun x _ absent inside => absent (sound.finished x inside)
  · trivial

theorem Cache.Sound.grows (sound : s.Sound read) (grows : Grows s t) (epoch : t.epoch = epochOf t.turns)
    (pending : ∀ place ∈ t.pending, place < t.committed.length)
    (finished : ∀ x ∈ t.finished, x.1 < t.committed.length ∧ x.2 ≤ t.turns) (held : t.held = s.held)
    (readers : t.readers = s.readers) : t.Sound read :=
  ⟨epoch, pending, finished, fun h inside => (sound.held h (held ▸ inside)).grows grows,
    fun r inside => (sound.readers r (readers ▸ inside)).grows grows⟩

theorem Cache.Sound.goes (sound : s.Sound read) {i : ℕ} {r : Reader τ} {stage : Stage τ}
    (inside : s.readers[i]? = some r) (right : ({ r with stage := stage } : Reader τ).StageSound read s) :
    (s.goes i r stage).Sound read := by
  have same : Grows s (s.goes i r stage) := ⟨⟨[], by simp [Cache.goes]⟩, Nat.le_refl _, fun _ inside => inside, fun _ => .inl⟩
  refine ⟨sound.epoch, sound.pending, sound.finished, fun h kept => (sound.held h kept).grows same, ?_⟩
  intro r' mem
  rcases mem_or_eq_of_mem_set mem with old | rfl
  · exact (sound.readers r' old).grows same
  · have moved : ({ r with stage := stage } : Reader τ).Sound read s :=
      ⟨(sound.readers r (mem_of_getElem? inside)).finished, right⟩
    exact moved.grows same

theorem le_of_epochOf_eq {a b : ℕ} (same : epochOf a = epochOf b) (near : b < a + 2 ^ 64) : b ≤ a := by
  unfold epochOf at same
  omega

theorem Cache.Sound.step {e : Event ω} (sound : s.Sound read) (recent : s.Recent e)
    (next : s.step read e = some t) : t.Sound read := by
  cases e with
  | commit write =>
    cases next
    refine sound.grows ⟨⟨[write], rfl⟩, Nat.le_refl _, fun _ inside => inside, fun _ => .inl⟩ sound.epoch ?_ ?_
      rfl rfl
    · intro place inside
      rw [length_append, length_singleton]
      rcases mem_append.mp inside with old | new
      · exact Nat.lt_succ_of_lt (sound.pending place old)
      · rw [mem_singleton.mp new]
        exact Nat.lt_succ_self _
    · intro x inside
      rw [length_append, length_singleton]
      exact ⟨Nat.lt_succ_of_lt (sound.finished x inside).1, (sound.finished x inside).2⟩
  | invalidate writer =>
    obtain ⟨place, there, same⟩ := Option.bind_eq_some_iff.mp next
    cases same
    refine sound.grows ⟨⟨[], by simp [Cache.turn]⟩, Nat.le_succ _, fun x inside => mem_append_left _ inside, ?_⟩
      ?_ ?_ ?_ rfl rfl
    · intro x inside
      rcases mem_append.mp inside with old | new
      · exact .inl old
      · rw [mem_singleton.mp new]
        exact .inr (Nat.lt_succ_self _)
    · simp only [Cache.turn, sound.epoch, epochOf]
      omega
    · exact fun p inside => sound.pending p (mem_of_mem_eraseIdx inside)
    · intro x inside
      rcases mem_append.mp inside with old | new
      · exact ⟨(sound.finished x old).1, Nat.le_succ_of_le (sound.finished x old).2⟩
      · rw [mem_singleton.mp new]
        exact ⟨sound.pending place (mem_of_getElem? there), Nat.le_refl _⟩
  | invalidateFailed =>
    cases next
    refine sound.grows ⟨⟨[], by simp [Cache.turn]⟩, Nat.le_succ _, fun _ inside => inside, fun _ => .inl⟩
      ?_ sound.pending (fun x inside => ⟨(sound.finished x inside).1, ?_⟩) rfl rfl
    · simp only [Cache.turn, sound.epoch, epochOf]
      omega
    · exact Nat.le_succ_of_le (sound.finished x inside).2
  | get =>
    cases next
    have same : Grows s { s with readers := s.readers ++ [⟨s.finished, .began⟩] } :=
      ⟨⟨[], by simp⟩, Nat.le_refl _, fun _ inside => inside, fun _ => .inl⟩
    refine ⟨sound.epoch, sound.pending, sound.finished, fun h kept => (sound.held h kept).grows same, ?_⟩
    intro r inside
    rcases mem_append.mp inside with old | new
    · exact (sound.readers r old).grows same
    · rw [mem_singleton.mp new]
      exact ⟨fun _ inside => inside, fun x inside => (sound.finished x inside).2⟩
  | load i =>
    obtain ⟨r, there, next⟩ := Option.bind_eq_some_iff.mp next
    have stage := (sound.readers r (mem_of_getElem? there)).stage
    split at next
    · rename_i stands
      cases next
      simp only [Reader.StageSound, stands] at stage
      exact sound.goes there ⟨sound.epoch, Nat.le_refl _, stage⟩
    · cases next
  | check i =>
    obtain ⟨r, there, next⟩ := Option.bind_eq_some_iff.mp next
    have reader := sound.readers r (mem_of_getElem? there)
    have stage := reader.stage
    split at next
    · rename_i epoch loadedAt held stands kept
      simp only [Reader.StageSound, stands] at stage
      split at next
      · rename_i same
        cases next
        have near := recent r there held kept (epoch, loadedAt) (by simp [Reader.loaded, stands])
        have own := sound.held held kept
        -- The view is kept under this epoch, so it was read after all that the call owes.
        have older : loadedAt ≤ held.loadedAt :=
          le_of_epochOf_eq (own.epoch.symm.trans (same.trans stage.epoch)) (near same)
        obtain ⟨seen, short, view, all⟩ := own.view
        exact sound.goes there ⟨seen, short, view, fun x inside owes =>
          all x inside (Nat.le_trans (stage.owed x owes) older)⟩
      · cases next
        exact sound.goes there ⟨stage.epoch, stage.past, stage.owed⟩
    · rename_i epoch loadedAt stands _
      simp only [Reader.StageSound, stands] at stage
      cases next
      exact sound.goes there ⟨stage.epoch, stage.past, stage.owed⟩
    · cases next
  | read i =>
    obtain ⟨r, there, next⟩ := Option.bind_eq_some_iff.mp next
    have stage := (sound.readers r (mem_of_getElem? there)).stage
    split at next
    · rename_i epoch loadedAt stands
      cases next
      simp only [Reader.StageSound, stands] at stage
      have loaded : ∀ stage', ({ r with stage := stage' } : Reader τ).Loaded s epoch loadedAt :=
        fun _ => ⟨stage.epoch, stage.past, stage.owed⟩
      refine sound.goes there ⟨loaded _, stage.epoch, stage.past, ?_⟩
      exact ⟨s.committed.length, Nat.le_refl _, by rw [take_length], fun x inside _ =>
        (sound.finished x inside).1⟩
    · cases next
  | readFails i =>
    obtain ⟨r, there, next⟩ := Option.bind_eq_some_iff.mp next
    split at next
    · cases next
      exact sound.goes there trivial
    · cases next
  | store i =>
    obtain ⟨r, there, next⟩ := Option.bind_eq_some_iff.mp next
    have stage := (sound.readers r (mem_of_getElem? there)).stage
    split at next
    · rename_i held stands
      cases next
      simp only [Reader.StageSound, stands] at stage
      obtain ⟨loaded, own⟩ := stage
      have same : Grows s { s with held := some held } :=
        ⟨⟨[], by simp⟩, Nat.le_refl _, fun _ inside => inside, fun _ => .inl⟩
      have kept : ({ s with held := some held } : Cache ω τ).Sound read := by
        refine ⟨sound.epoch, sound.pending, sound.finished, ?_, fun r inside => (sound.readers r inside).grows same⟩
        rintro h ⟨⟩
        exact own.grows same
      obtain ⟨seen, short, view, all⟩ := own.view
      exact kept.goes there ⟨seen, short, view, fun x inside owes => all x inside (loaded.owed x owes)⟩
    · cases next

end

/-- A call returns a view of the writes up to some point that has every write that was through before
it began, unless 2^64 invalidations fall between the loads of the view's epoch and of its own. -/
theorem view_reflects_writes (read : List ω → τ) (s : Cache ω τ)
    (run : Reach (Cache.step read) Cache.Recent .new s) (r : Reader τ) (inside : r ∈ s.readers) (view : τ)
    (returned : r.stage = .returned view) :
    ∃ seen ≤ s.committed.length, view = read (s.committed.take seen) ∧ ∀ x ∈ r.owed, x.1 < seen := by
  have sound : s.Sound read := by
    refine Reach.invariant (fun s => s.Sound read) ⟨rfl, ?_, ?_, ?_, ?_⟩
      (fun _ _ _ held recent next => held.step recent next) run
    all_goals simp [Cache.new]
  have reader := sound.readers r inside
  have stage := reader.stage
  simp only [Reader.StageSound, returned] at stage
  obtain ⟨seen, short, same, all⟩ := stage
  exact ⟨seen, short, same, fun x owes => all x (reader.finished x owes) owes⟩

/-- The second call began after a write was through, and misses. -/
theorem view_reflects_writes_again : ∃ (s : Cache Bool (List Bool)) (r : Reader (List Bool)),
    r ∈ s.readers ∧ r.owed = [(0, 1)] ∧ r.stage = .returned [true] ∧
      ∃ seen ≤ s.committed.length, [true] = s.committed.take seen ∧ ∀ x ∈ r.owed, x.1 < seen := by
  obtain ⟨s, run, found⟩ := @Reach.of_exec_any _ _ (Cache.step (id : List Bool → List Bool)) Cache.Recent _
    .new [.get, .load 0, .check 0, .read 0, .commit true, .store 0, .invalidate 0, .get, .load 1, .check 1,
      .read 1, .store 1]
    (fun s : Cache Bool (List Bool) => s.readers[1]?.any fun r : Reader (List Bool) =>
      decide (r.owed = [(0, 1)] ∧ r.stage = .returned [true]))
    (by decide +kernel)
  obtain ⟨r, there, holds⟩ := (Option.any_eq_true _ _).mp found
  obtain ⟨owed, returned⟩ := of_decide_eq_true holds
  exact ⟨s, r, List.mem_of_getElem? there, owed, returned,
    view_reflects_writes id s run r (List.mem_of_getElem? there) _ returned⟩

theorem reach_writes (s : Cache Unit (List Unit)) (idle : s.pending = []) (wide : s.epoch < 2 ^ 64) (n : ℕ) :
    ∃ t, Reach (Cache.step id) anyStep s t ∧ t.pending = [] ∧ t.epoch = (s.epoch + n) % 2 ^ 64 ∧
      t.held = s.held ∧ t.readers = s.readers ∧ n ≤ t.finished.length := by
  induction n with
  | zero => exact ⟨s, .start, idle, by omega, rfl, rfl, Nat.zero_le _⟩
  | succ n ih =>
    obtain ⟨t, run, pending, epoch, held, readers, through⟩ := ih
    refine ⟨⟨t.committed ++ [()], [], t.finished ++ [(t.committed.length, t.turns + 1)], t.turns + 1,
      (t.epoch + 1) % 2 ^ 64, t.held, t.readers⟩,
      .step (.invalidate 0) (.step (.commit ()) run trivial rfl) trivial ?_, rfl, ?_, held, readers, ?_⟩
    · simp [Cache.step, pending, Cache.turn]
    · simp only [epoch]
      omega
    · simpa using through

/-- 2^64 writes bring the epoch back to that of a view that is kept from before all of them. -/
theorem view_returns_stale : ∃ s : Cache Unit (List Unit), Reach (Cache.step id) anyStep .new s ∧
    ∃ r ∈ s.readers, ∃ view, r.stage = .returned view ∧
      ¬ ∃ seen ≤ s.committed.length, view = s.committed.take seen ∧ ∀ x ∈ r.owed, x.1 < seen := by
  have first : Reach (Cache.step id) anyStep .new
      (⟨[], [], [], 0, 0, some ⟨0, 0, []⟩, [⟨[], .returned []⟩]⟩ : Cache Unit (List Unit)) :=
    @Reach.of_exec _ _ _ anyStep _ _ _ [.get, .load 0, .check 0, .read 0, .store 0] rfl
  obtain ⟨⟨committed, pending, finished, turns, epoch, held, readers⟩, run, rfl, rfl, rfl, rfl, through⟩ :=
    reach_writes ⟨[], [], [], 0, 0, some ⟨0, 0, []⟩, [⟨[], .returned []⟩]⟩ rfl (by decide) (2 ^ 64)
  have last : Reach (Cache.step id) anyStep
      (⟨committed, [], finished, turns, 0, some ⟨0, 0, []⟩, [⟨[], .returned []⟩]⟩ : Cache Unit (List Unit))
      ⟨committed, [], finished, turns, 0, some ⟨0, 0, []⟩, [⟨[], .returned []⟩, ⟨finished, .returned []⟩]⟩ :=
    @Reach.of_exec _ _ _ anyStep _ _ _ [.get, .load 1, .check 1] rfl
  refine ⟨_, (first.trans run).trans last, ⟨finished, .returned []⟩, by simp, [], rfl, ?_⟩
  rintro ⟨seen, short, empty, all⟩
  obtain ⟨x, inside⟩ := List.exists_mem_of_length_pos (Nat.lt_of_lt_of_le (by decide) through)
  have before := all x inside
  have nothing := congrArg List.length empty
  rw [List.length_nil, List.length_take] at nothing
  omega

end TallyOwl.ViewCache
