import Mathlib.Algebra.GroupWithZero.Nat
import Mathlib.Data.List.Forall2

/-! Blocks written one behind another, each told where it starts. -/
namespace TallyOwl.Lib
open List

variable {α β γ ε : Type*} {put : ℕ → α → Except ε (List γ × β)} {start : ℕ} {xs : List α}
  {written : List γ} {places : List β}

/-- The blocks of some items from one offset on, and what each leaves in a directory. -/
def layOut (put : ℕ → α → Except ε (List γ × β)) : (start : ℕ) → List α → Except ε (List γ × List β)
  | _, [] => .ok ([], [])
  | start, x :: xs => do
      let (block, place) ← put start x
      let (blocks, places) ← layOut put (start + block.length) xs
      .ok (block ++ blocks, place :: places)

/-- One item's block stands among the written, at the offset it was told. -/
def LaidAt (put : ℕ → α → Except ε (List γ × β)) (start : ℕ) (written : List γ) (x : α) (place : β) : Prop :=
  ∃ before block after, written = before ++ (block ++ after) ∧ put (start + before.length) x = .ok (block, place)

theorem LaidAt.prepend {block : List γ} {x : α} {place : β}
    (laid : LaidAt put (start + block.length) written x place) : LaidAt put start (block ++ written) x place := by
  obtain ⟨before, own, after, rfl, same⟩ := laid
  refine ⟨block ++ before, own, after, by simp, ?_⟩
  rw [length_append, ← Nat.add_assoc, same]

theorem layOut_cons_ok {x : α} (laid : layOut put start (x :: xs) = .ok (written, places)) :
    ∃ block place blocks later, put start x = .ok (block, place) ∧
      layOut put (start + block.length) xs = .ok (blocks, later) ∧
      written = block ++ blocks ∧ places = place :: later := by
  rw [layOut] at laid
  cases first : put start x with
  | error e => simp [first, bind, Except.bind] at laid
  | ok made =>
    cases rest : layOut put (start + made.1.length) xs with
    | error e => simp [first, rest, bind, Except.bind] at laid
    | ok more =>
      simp only [first, rest, bind, Except.bind, Except.ok.injEq, Prod.mk.injEq] at laid
      exact ⟨made.1, made.2, more.1, more.2, rfl, rest, laid.1.symm, laid.2.symm⟩

theorem layOut_ok (laid : layOut put start xs = .ok (written, places)) :
    List.Forall₂ (LaidAt put start written) xs places := by
  induction xs generalizing start written places with
  | nil =>
    cases laid
    exact .nil
  | cons x xs ih =>
    obtain ⟨block, place, blocks, later, first, rest, rfl, rfl⟩ := layOut_cons_ok laid
    refine .cons ⟨[], block, blocks, by simp, by simpa using first⟩ ?_
    exact (ih rest).imp fun _ _ => LaidAt.prepend

theorem mem_layOut (laid : layOut put start xs = .ok (written, places)) {place : β} (inside : place ∈ places) :
    ∃ x ∈ xs, LaidAt put start written x place := by
  obtain ⟨i, low, rfl⟩ := mem_iff_getElem.mp inside
  have each := layOut_ok laid
  have low' : i < xs.length := each.length_eq ▸ low
  exact ⟨xs[i], getElem_mem low', each.get low' low⟩

theorem LaidAt.within {x : α} {place : β} (laid : LaidAt put start written x place) :
    ∃ first block, put first x = .ok (block, place) ∧ start ≤ first ∧
      first + block.length ≤ start + written.length := by
  obtain ⟨before, block, after, rfl, same⟩ := laid
  refine ⟨start + before.length, block, same, Nat.le_add_right _ _, ?_⟩
  simp only [length_append]
  omega

theorem LaidAt.inside {ahead : List γ} {x : α} {place : β} (laid : LaidAt put ahead.length written x place)
    (behind : List γ) : ∃ before block after, ahead ++ (written ++ behind) = before ++ (block ++ after) ∧
      put before.length x = .ok (block, place) := by
  obtain ⟨before, block, after, rfl, same⟩ := laid
  refine ⟨ahead ++ before, block, after ++ behind, by simp, ?_⟩
  rw [length_append, same]

theorem layOut_returns (each : ∀ x ∈ xs, ∀ start, ∃ made, put start x = .ok made) :
    ∃ made, layOut put start xs = .ok made := by
  induction xs generalizing start with
  | nil => exact ⟨_, rfl⟩
  | cons x xs ih =>
    obtain ⟨own, rest⟩ := forall_mem_cons.mp each
    obtain ⟨made, first⟩ := own start
    obtain ⟨more, later⟩ := @ih (start + made.1.length) rest
    refine ⟨(made.1 ++ more.1, made.2 :: more.2), ?_⟩
    rw [layOut, first]
    simp only [bind, Except.bind, later]

theorem weight_le_layOut {weight : α → ℕ} {factor : ℕ} (laid : layOut put start xs = .ok (written, places))
    (each : ∀ x ∈ xs, ∀ start block place, put start x = .ok (block, place) → weight x ≤ factor * block.length) :
    (xs.map weight).sum ≤ factor * written.length := by
  induction xs generalizing start written places with
  | nil => simp
  | cons x xs ih =>
    obtain ⟨own, rest⟩ := forall_mem_cons.mp each
    obtain ⟨block, place, blocks, later, first, more, rfl, rfl⟩ := layOut_cons_ok laid
    have here := own start block place first
    have there := ih more rest
    rw [map_cons, sum_cons, length_append, Nat.mul_add]
    omega

end TallyOwl.Lib
