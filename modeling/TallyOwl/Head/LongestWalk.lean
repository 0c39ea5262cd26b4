import Mathlib.Order.Bounds.Basic
import TallyOwl.Head.Analysis
import TallyOwl.Lib.Greedy

/-! The ordered walk of a funnel finds the longest sequence of one key's rows, and the earliest rows for it. -/
namespace TallyOwl.Analysis
open Lib List

theorem walkOn_eq (inside : EventRow → Bool) (rows : List EventRow) (steps : List Step) : walkOn inside rows steps =
      (takeEach (steps.map fun step row => inside row && step.keeps row) rows).map (Option.map EventRow.occurredAt) := by
  induction steps generalizing rows with
  | nil => rfl
  | cons step steps ih =>
    rw [map_cons]
    simp only [walkOn, takeEach]
    cases rows.dropWhile fun row => !(inside row && step.keeps row) with
    | nil => simp [Function.comp_def]
    | cons row later => exact congrArg (some row.occurredAt :: ·) (ih later)

section
variable {rows : List EventRow} {first : Step} {rest exclusions : List Step} {question : FunnelQuestion}

variable {before after : List EventRow} {opening : EventRow}

theorem walk_ordered (ordered : question.ordered = true)
    (whole : rows = before ++ opening :: after) (early : ∀ row ∈ before, first.keeps row = false)
    (opens : first.keeps opening = true) (clear : ∀ excluded ∈ exclusions, ∀ row ∈ rows,
      insideWindow opening.occurredAt (question.closesAt opening.occurredAt) row = true → excluded.keeps row = false) :
    walk rows (first :: rest) exclusions question = some ⟨some opening.occurredAt ::
      walkOn (insideWindow opening.occurredAt (question.closesAt opening.occurredAt)) after rest, before.length⟩ := by
  have index : rows.findIdx? (fun row => first.keeps row) = some before.length := by
    have none : before.findIdx? (fun row => first.keeps row) = none := findIdx?_eq_none_iff.mpr early
    rw [whole, findIdx?_append, none, findIdx?_cons, opens]
    simp
  have entered : rows[before.length]? = some opening := by simp [whole]
  have later : rows.drop (before.length + 1) = after := by simp [whole]
  have unvoided : (!exclusions.any fun excluded => rows.any fun row =>
      insideWindow opening.occurredAt (question.closesAt opening.occurredAt) row && excluded.keeps row) = true := by
    simpa using clear
  simp only [walk, ordered, if_true, head?_cons, Option.bind_eq_bind, Option.bind_some, index, entered,
    Option.map_some, unvoided, guard, tail_cons, later]
  rfl

theorem walk_unopened (ordered : question.ordered = true) (absent : rows.find? first.keeps = none) :
    walk rows (first :: rest) exclusions question = none := by
  have index : rows.findIdx? (fun row => first.keeps row) = none :=
    findIdx?_eq_none_iff.mpr fun row inside => by simpa using find?_eq_none.mp absent row inside
  simp [walk, ordered, index]

/-- Rows in order, the first of all that match the first step and behind it one for each of the next steps, all inside
the window that the first one opens, and the moment of the last. -/
def Sequence (closesAt : Int → Int) (rows : List EventRow) (first : Step) (rest : List Step) (k : Nat) (moment : Int) : Prop :=
  ∃ opening chosen, rows.find? first.keeps = some opening ∧ (opening :: chosen).Sublist rows ∧
    List.Forall₂ (fun step row => step.keeps row = true ∧
      insideWindow opening.occurredAt (closesAt opening.occurredAt) row = true) (rest.take k) chosen ∧
    (opening :: chosen).getLast?.map EventRow.occurredAt = some moment

def reachedAt (walked : Option Walked) (k : Nat) : Option Int := (walked.bind fun walked => walked.reached[k]?).join

variable {k : Nat} {moment : Int}

theorem sequence_iff {closesAt : Int → Int}
    (whole : rows = before ++ opening :: after) (early : ∀ row ∈ before, first.keeps row = false)
    (opens : first.keeps opening = true) : Sequence closesAt rows first rest k moment ↔ ∃ chosen, chosen.Sublist after ∧
      Passes ((rest.map fun step row => insideWindow opening.occurredAt (closesAt opening.occurredAt) row &&
        step.keeps row).take k) chosen ∧ (opening :: chosen).getLast?.map EventRow.occurredAt = some moment := by
  have found : rows.find? first.keeps = some opening := by
    rw [whole, find?_append, find?_eq_none.mpr (by simpa using early), Option.none_or,
      find?_cons_of_pos opens]
  have passes (chosen : List EventRow) : Passes ((rest.map fun step row =>
      insideWindow opening.occurredAt (closesAt opening.occurredAt) row && step.keeps row).take k) chosen ↔
      List.Forall₂ (fun step row => step.keeps row = true ∧
        insideWindow opening.occurredAt (closesAt opening.occurredAt) row = true) (rest.take k) chosen := by
    rw [Passes, ← map_take, forall₂_map_left_iff]
    simp only [Bool.and_eq_true, and_comm]
  constructor
  · rintro ⟨other, chosen, first', sub, all, last⟩
    obtain rfl := Option.some.inj (found.symm.trans first')
    have behind := sublist_dropWhile opens (whole ▸ sub)
    rw [dropWhile_append_of_pos (by simpa using early), dropWhile_cons_of_neg (by simp [opens])] at behind
    exact ⟨chosen, sublist_later behind, (passes chosen).mpr all, last⟩
  · rintro ⟨chosen, sub, all, last⟩
    refine ⟨opening, chosen, found, ?_, (passes chosen).mp all, last⟩
    rw [whole]
    exact (sub.cons_cons opening).trans (sublist_append_right _ _)

theorem reachedAt_succ (k : Nat) : reachedAt (some ⟨some opening.occurredAt :: walkOn (insideWindow opening.occurredAt
      (question.closesAt opening.occurredAt)) after rest, before.length⟩) (k + 1) =
      (takeEach (rest.map fun step row => insideWindow opening.occurredAt (question.closesAt opening.occurredAt) row &&
        step.keeps row) after)[k]?.join.map EventRow.occurredAt := by
  rw [walkOn_eq]
  simp only [reachedAt, Option.bind_some, getElem?_cons_succ, getElem?_map]
  cases (takeEach _ after)[k]? with
  | none => rfl
  | some taken => cases taken <;> rfl

theorem sequence_of_reached
    (whole : rows = before ++ opening :: after) (early : ∀ row ∈ before, first.keeps row = false)
    (opens : first.keeps opening = true)
    (reached : reachedAt (some ⟨some opening.occurredAt :: walkOn (insideWindow opening.occurredAt
      (question.closesAt opening.occurredAt)) after rest, before.length⟩) k = some moment) :
    Sequence question.closesAt rows first rest k moment := by
  refine (sequence_iff whole early opens).mpr ?_
  cases k with
  | zero => exact ⟨[], nil_sublist _, .nil, reached⟩
  | succ k =>
    rw [reachedAt_succ] at reached
    obtain ⟨row, taken, rfl⟩ := Option.map_eq_some_iff.mp reached
    obtain ⟨chosen, sub, passes, last⟩ := takeEach_passes (Option.join_eq_some_iff.mp taken)
    refine ⟨chosen, sub, passes, ?_⟩
    rw [getLast?_cons, last]
    rfl

theorem reached_of_sequence
    (whole : rows = before ++ opening :: after) (early : ∀ row ∈ before, first.keeps row = false)
    (opens : first.keeps opening = true) (sorted : rows.Pairwise fun a b => a.occurredAt ≤ b.occurredAt)
    (step : k ≤ rest.length) (sequence : Sequence question.closesAt rows first rest k moment) :
    ∃ least ≤ moment, reachedAt (some ⟨some opening.occurredAt :: walkOn (insideWindow opening.occurredAt
      (question.closesAt opening.occurredAt)) after rest, before.length⟩) k = some least := by
  obtain ⟨chosen, sub, passes, last⟩ := (sequence_iff whole early opens).mp sequence
  cases k with
  | zero =>
    cases passes
    exact ⟨moment, le_refl _, last⟩
  | succ k =>
    have order : after.Pairwise fun a b => a.occurredAt ≤ b.occurredAt := by
      rw [whole] at sorted
      exact (pairwise_cons.mp (pairwise_append.mp sorted).2.1).2
    have length : chosen.length = k + 1 := by
      rw [← List.Forall₂.length_eq passes, length_take, length_map]
      omega
    obtain ⟨row, final⟩ : ∃ row, chosen.getLast? = some row := by
      cases ends : chosen.getLast? with
      | none => simp [getLast?_eq_none_iff.mp ends] at length
      | some row => exact ⟨row, rfl⟩
    obtain ⟨taken, found, least⟩ := takeEach_least order sub (by rwa [length_map]) passes final
    rw [getLast?_cons, final] at last
    cases last
    refine ⟨taken.occurredAt, least, ?_⟩
    rw [reachedAt_succ, found]
    rfl

/-- The walk reaches a step exactly where a sequence of rows does, and at the least moment that one can. -/
theorem walk_longest (ordered : question.ordered = true) (sorted : rows.Pairwise fun a b => a.occurredAt ≤ b.occurredAt)
    (clear : ∀ opening, rows.find? first.keeps = some opening → ∀ excluded ∈ exclusions, ∀ row ∈ rows,
      insideWindow opening.occurredAt (question.closesAt opening.occurredAt) row = true → excluded.keeps row = false)
    {k : Nat} (step : k ≤ rest.length) : ((reachedAt (walk rows (first :: rest) exclusions question) k).isSome ↔
      ∃ moment, Sequence question.closesAt rows first rest k moment) ∧
    ∀ moment, reachedAt (walk rows (first :: rest) exclusions question) k = some moment ↔
      IsLeast {moment | Sequence question.closesAt rows first rest k moment} moment := by
  cases found : rows.find? first.keeps with
  | none =>
    have never (moment : Int) : ¬Sequence question.closesAt rows first rest k moment := by
      rintro ⟨opening, chosen, first', -⟩
      rw [found] at first'
      cases first'
    rw [walk_unopened ordered found]
    exact ⟨⟨nofun, fun some => absurd some.choose_spec (never _)⟩, fun moment => ⟨nofun, fun least =>
      absurd least.1 (never moment)⟩⟩
  | some opening =>
    obtain ⟨opens, before, after, whole, early⟩ := List.find?_eq_some_iff_append.mp found
    have quiet : ∀ row ∈ before, first.keeps row = false := fun row inside => by simpa using early row inside
    rw [walk_ordered ordered whole quiet opens (clear opening found)]
    have sound (moment : Int) : _ → Sequence question.closesAt rows first rest k moment :=
      sequence_of_reached whole quiet opens
    have complete (moment : Int) (sequence : Sequence question.closesAt rows first rest k moment) :=
      reached_of_sequence whole quiet opens sorted step sequence
    refine ⟨⟨fun some => ?_, fun some => ?_⟩, fun moment => ⟨fun reached => ⟨sound moment reached, fun other sequence => ?_⟩,
      fun least => ?_⟩⟩
    · obtain ⟨moment, reached⟩ := Option.isSome_iff_exists.mp some
      exact ⟨moment, sound moment reached⟩
    · obtain ⟨moment, sequence⟩ := some
      obtain ⟨least, -, reached⟩ := complete moment sequence
      exact Option.isSome_iff_exists.mpr ⟨least, reached⟩
    · obtain ⟨least, le, same⟩ := complete other sequence
      obtain rfl := Option.some.inj (reached.symm.trans same)
      exact le
    · obtain ⟨found, le, reached⟩ := complete moment least.1
      rw [reached, le_antisymm le (least.2 (sound found reached))]

end

def withinTen : FunnelQuestion := ⟨.endUser, .eventTime, 10, true, none⟩

def viewThenBuy (openedAt : Int) : List EventRow :=
  [.new 1 "event" "view" openedAt, .new 2 "event" "buy" (openedAt + 5)]

theorem walk_longest_bought :
    IsLeast {moment | Sequence withinTen.closesAt (viewThenBuy 0) (named "view") [named "buy"] 1 moment} 5 := by
  have longest := walk_longest (show withinTen.ordered = true from rfl)
    (show (viewThenBuy 0).Pairwise fun a b => a.occurredAt ≤ b.occurredAt by decide)
    (show ∀ opening, (viewThenBuy 0).find? (named "view").keeps = some opening → ∀ excluded ∈ ([] : List Step),
      ∀ row ∈ viewThenBuy 0, insideWindow opening.occurredAt (withinTen.closesAt opening.occurredAt) row = true →
        excluded.keeps row = false from nofun) (show 1 ≤ [named "buy"].length by decide)
  exact (longest.2 5).mp (by decide)

/-- The window of a view in the last milliseconds of the clock ends with the clock: a purchase inside the window, at the
last millisecond, is not reached. -/
theorem walk_misses_last_moment :
    Sequence (· + withinTen.windowMs) (viewThenBuy (2 ^ 63 - 6)) (named "view") [named "buy"] 1 (2 ^ 63 - 1) ∧
    reachedAt (walk (viewThenBuy (2 ^ 63 - 6)) [named "view", named "buy"] [] withinTen) 1 = none := by
  refine ⟨⟨.new 1 "event" "view" (2 ^ 63 - 6), [.new 2 "event" "buy" (2 ^ 63 - 6 + 5)], by decide, .refl _, ?_, by decide⟩,
    by decide⟩
  exact .cons (by decide) .nil

end TallyOwl.Analysis
