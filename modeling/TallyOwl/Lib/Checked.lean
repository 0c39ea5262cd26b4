import Mathlib.Algebra.Group.Nat.Defs
import Mathlib.Tactic.Common

/-! Computations that may return, fail with an error of their own, or stop the process:
a number that leaves its word, an index or a range outside its list, an allocation for
more items than there are bits to back them. -/
namespace TallyOwl.Lib

inductive Fault where
  | overflow
  | range
  | allocation
  deriving DecidableEq

inductive Stop (ε : Type) where
  | error (e : ε)
  | fault (f : Fault)
  deriving DecidableEq

abbrev Checked (ε α : Type) := Except (Stop ε) α

namespace Checked
variable {ε α β : Type}

def lift : Except ε α → Checked ε α
  | .ok a => .ok a
  | .error e => .error (.error e)

def fail (e : ε) : Checked ε α := .error (.error e)

def fault (f : Fault) : Checked ε α := .error (.fault f)

def word (n : Nat) : Checked ε Nat := if n < 2 ^ 64 then .ok n else fault .overflow

/-- A number that a plain operator gave, where its type holds it. -/
def within (fits : α → Prop) [DecidablePred fits] (a : α) : Checked ε α :=
  if fits a then .ok a else fault .overflow

def minus (a b : Nat) : Checked ε Nat := if b ≤ a then .ok (a - b) else fault .overflow

def item (xs : List α) (i : Nat) : Checked ε α :=
  match xs[i]? with
  | some x => .ok x
  | none => fault .range

def part (xs : List α) (first last : Nat) : Checked ε (List α) :=
  if first ≤ last ∧ last ≤ xs.length then .ok ((xs.take last).drop first) else fault .range

/-- Room for some items, each with at least one bit of some bytes behind it. -/
def allocate (count bytes : Nat) : Checked ε Unit :=
  if count ≤ 8 * bytes then .ok () else fault .allocation

def Faults (r : Checked ε α) : Prop := ∃ f, r = .error (.fault f)

variable {x : Checked ε α} {f : α → Checked ε β}

theorem faults_bind : Faults (x >>= f) ↔ Faults x ∨ ∃ a, x = .ok a ∧ Faults (f a) := by
  cases x with
  | error s => simp [Faults, Bind.bind, Except.bind]
  | ok a => simp [Faults, Bind.bind, Except.bind]

theorem not_faults_bind (first : ¬ Faults x) (next : ∀ a, x = .ok a → ¬ Faults (f a)) : ¬ Faults (x >>= f) := by
  rw [faults_bind]
  rintro (here | ⟨a, ran, there⟩)
  · exact first here
  · exact next a ran there

theorem bind_eq_ok {b : β} : x >>= f = .ok b ↔ ∃ a, x = .ok a ∧ f a = .ok b := by
  cases x with
  | error s => simp [Bind.bind, Except.bind]
  | ok a => simp [Bind.bind, Except.bind]

@[simp] theorem ok_bind (a : α) (f : α → Checked ε β) : (.ok a : Checked ε α) >>= f = f a := rfl

@[simp] theorem not_faults_ok (a : α) : ¬ Faults (.ok a : Checked ε α) := by simp [Faults]

@[simp] theorem not_faults_pure (a : α) : ¬ Faults (pure a : Checked ε α) := not_faults_ok a

@[simp] theorem not_faults_fail (e : ε) : ¬ Faults (fail e : Checked ε α) := by simp [Faults, fail]

@[simp] theorem faults_fault (f : Fault) : Faults (fault f : Checked ε α) := ⟨f, rfl⟩

@[simp] theorem not_faults_lift (x : Except ε α) : ¬ Faults (lift x) := by
  cases x <;> simp [Faults, lift]

@[simp] theorem lift_ok (a : α) : (lift (.ok a) : Checked ε α) = .ok a := rfl

@[simp] theorem lift_error (e : ε) : (lift (.error e) : Checked ε α) = fail e := rfl

@[simp] theorem fail_bind (e : ε) (f : α → Checked ε β) : (fail e : Checked ε α) >>= f = fail e := rfl

theorem lift_eq_ok {x : Except ε α} {a : α} : lift x = .ok a ↔ x = .ok a := by
  cases x <;> simp [lift]

theorem not_faults_lift_bind {x : Except ε α} {f : α → Checked ε β} (next : ∀ a, x = .ok a → ¬ Faults (f a)) :
    ¬ Faults (lift x >>= f) :=
  not_faults_bind (not_faults_lift x) fun a ran => next a (lift_eq_ok.mp ran)

theorem not_faults_map {g : α → β} (first : ¬ Faults x) : ¬ Faults (x >>= fun a => .ok (g a)) :=
  not_faults_bind first fun a _ => not_faults_ok (g a)

theorem word_eq_ok {n m : Nat} : (word n : Checked ε Nat) = .ok m ↔ n < 2 ^ 64 ∧ n = m := by
  by_cases small : n < 2 ^ 64
  · rw [word, if_pos small, Except.ok.injEq, and_iff_right small]
  · rw [word, if_neg small]
    exact ⟨fun is => (by cases is), fun both => absurd both.1 small⟩

variable {n : Nat}

theorem word_of_lt (small : n < 2 ^ 64) : (word n : Checked ε Nat) = .ok n := if_pos small

theorem not_faults_word (small : n < 2 ^ 64) : ¬ Faults (word n : Checked ε Nat) := by
  rw [word_of_lt small]
  exact not_faults_ok n

theorem not_faults_word_bind {f : Nat → Checked ε α} (small : n < 2 ^ 64) (next : ¬ Faults (f n)) :
    ¬ Faults (word n >>= f) := by
  rwa [word_of_lt small, ok_bind]

theorem faults_word : Faults (word n : Checked ε Nat) ↔ 2 ^ 64 ≤ n := by
  unfold word
  split
  · simp only [not_faults_ok, false_iff]
    omega
  · simp only [faults_fault, true_iff]
    omega

theorem minus_of_le {a b : Nat} (less : b ≤ a) : (minus a b : Checked ε Nat) = .ok (a - b) := if_pos less

theorem faults_allocate {count bytes : Nat} : Faults (allocate count bytes : Checked ε Unit) ↔ 8 * bytes < count := by
  unfold allocate
  split
  · simp only [not_faults_ok, false_iff]
    omega
  · simp only [faults_fault, true_iff]
    omega

theorem allocate_of_le {count bytes : Nat} (backed : count ≤ 8 * bytes) :
    (allocate count bytes : Checked ε Unit) = .ok () := if_pos backed

theorem within_of {fits : α → Prop} [DecidablePred fits] {a : α} (holds : fits a) :
    (within fits a : Checked ε α) = .ok a := if_pos holds

theorem item_of_lt {xs : List α} {i : Nat} {x : α} (found : xs[i]? = some x) : (item xs i : Checked ε α) = .ok x := by
  rw [item, found]

theorem part_of_le {xs : List α} {first last : Nat} (order : first ≤ last) (inside : last ≤ xs.length) :
    (part xs first last : Checked ε (List α)) = .ok ((xs.take last).drop first) :=
  if_pos ⟨order, inside⟩

/-- The computation gives the answer exactly under a condition, and stops the process
elsewhere. -/
structure Settles (x : Checked ε α) (safe : Prop) (a : α) : Prop where
  runs : safe → x = .ok a
  stops : ¬safe → Faults x

section
variable {x : Checked ε α} {f : α → Checked ε β} {safe more : Prop} {a : α} {b : β}

theorem Settles.congr (settles : Settles x safe a) (same : more ↔ safe) : Settles x more a :=
  ⟨fun fine => settles.runs (same.mp fine), fun never => settles.stops fun fine => never (same.mpr fine)⟩

theorem Settles.of_eq (same : x = .ok a) : Settles x True a :=
  ⟨fun _ => same, fun never => (never trivial).elim⟩

theorem Settles.bind (first : Settles x safe a) (next : Settles (f a) more b) : Settles (x >>= f) (safe ∧ more) b where
  runs := by
    rintro ⟨fine, later⟩
    rw [first.runs fine, ok_bind, next.runs later]
  stops := by
    intro leaves
    rw [faults_bind]
    by_cases fine : safe
    · exact .inr ⟨a, first.runs fine, next.stops fun later => leaves ⟨fine, later⟩⟩
    · exact .inl (first.stops fine)

theorem Settles.map (first : Settles x safe a) (g : α → β) : Settles (x >>= fun a => .ok (g a)) safe (g a) := by
  have last : Settles (.ok (g a) : Checked ε β) True (g a) := .of_eq rfl
  exact (first.bind last).congr (and_iff_left trivial).symm

theorem settles_within (fits : α → Prop) [DecidablePred fits] (a : α) :
    Settles (within fits a : Checked ε α) (fits a) a where
  runs := within_of
  stops := by
    intro leaves
    rw [within, if_neg leaves]
    exact faults_fault _

theorem Settles.iff_ok (settles : Settles x safe a) : x = .ok a ↔ safe := by
  refine ⟨fun ran => ?_, settles.runs⟩
  by_contra leaves
  have stopped := settles.stops leaves
  rw [ran] at stopped
  exact not_faults_ok a stopped

end

end Checked

end TallyOwl.Lib
