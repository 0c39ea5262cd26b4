import Mathlib.Tactic.Common

/-! Updates that say whether they changed the state, and a counter that rises where they did.
A second application is the first one exactly where it changes nothing. -/
namespace TallyOwl.Lib

variable {σ ε : Type*}

def counted (raise : σ → σ) : Except ε Bool × σ → σ
  | (.ok true, after) => raise after
  | (_, after) => after

theorem counted_changed {raise : σ → σ} {outcome : Except ε Bool × σ} (changed : outcome.1 = .ok true) :
    counted raise outcome = raise outcome.2 := by
  obtain ⟨said, after⟩ := outcome
  obtain rfl : said = .ok true := changed
  rfl

theorem counted_quiet {raise : σ → σ} {outcome : Except ε Bool × σ} (quiet : outcome.1 ≠ .ok true) :
    counted raise outcome = outcome.2 := by
  obtain ⟨said, after⟩ := outcome
  cases said with
  | error e => rfl
  | ok changed =>
    cases changed with
    | false => rfl
    | true => exact (quiet rfl).elim

/-- What an update says of the state it leaves: a refusal and a report of no change leave
the state, and a change does not move the counter itself. -/
inductive Reported (count : σ → Nat) (s : σ) : Except ε Bool × σ → Prop where
  | refused (e : ε) : Reported count s (.error e, s)
  | same : Reported count s (.ok false, s)
  | changed {after : σ} (kept : count after = count s) : Reported count s (.ok true, after)

section
variable {count : σ → Nat} {s : σ} {outcome : Except ε Bool × σ}

theorem Reported.quiet (reported : Reported count s outcome) (quiet : outcome.1 ≠ .ok true) : outcome.2 = s := by
  cases reported with
  | refused e => rfl
  | same => rfl
  | changed kept => exact (quiet rfl).elim

theorem Reported.uncounted (reported : Reported count s outcome) : count outcome.2 = count s := by
  cases reported with
  | refused e => rfl
  | same => rfl
  | changed kept => exact kept

end

def Honest (update : σ → Except ε Bool × σ) (count : σ → Nat) : Prop := ∀ s, Reported count s (update s)

section
variable {update : σ → Except ε Bool × σ} {count : σ → Nat} {raise : σ → σ}

theorem Honest.step (honest : Honest update count) (rises : ∀ s, count (raise s) = count s + 1) (s : σ) :
    counted raise (update s) = s ∨ count (counted raise (update s)) = count s + 1 := by
  by_cases changed : (update s).1 = .ok true
  · right
    rw [counted_changed changed, rises, (honest _).uncounted]
  · left
    rw [counted_quiet changed, (honest s).quiet changed]

theorem Honest.twice_iff (honest : Honest update count) (rises : ∀ s, count (raise s) = count s + 1)
    (s : σ) : counted raise (update (counted raise (update s))) = counted raise (update s) ↔
      ((update s).1 = .ok true → (update (raise (update s).2)).1 ≠ .ok true) := by
  by_cases changed : (update s).1 = .ok true
  · rw [counted_changed changed]
    constructor
    · intro same _ again
      have counts := congrArg count same
      rw [counted_changed again, rises, (honest _).uncounted] at counts
      omega
    · intro settles
      rw [counted_quiet (settles changed), (honest _).quiet (settles changed)]
  · refine iff_of_true ?_ fun yes => (changed yes).elim
    have first : counted raise (update s) = s := by
      rw [counted_quiet changed, (honest s).quiet changed]
    rw [first, first]

end

end TallyOwl.Lib
