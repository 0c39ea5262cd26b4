import TallyOwl.Head.Expr
import TallyOwl.Lib.Kleene

/-! The three values of the filter language (`expr.rs`). A comparison and a set test are one
truth each, a logical operator is the operator of a logic of three truths, and only the set
test answers over a value that its operand does not compare with. -/
open List

namespace TallyOwl.Expr
open Lib

namespace Outcome

def ofTruth : Option Bool → Outcome
  | some value => .boolean value
  | none => .unknown

@[simp] theorem truth_ofTruth (truth : Option Bool) : (ofTruth truth).truth = truth := by
  cases truth <;> rfl

theorem ofTruth_injective {a b : Option Bool} (same : ofTruth a = ofTruth b) : a = b := by
  rw [← truth_ofTruth a, ← truth_ofTruth b, same]

end Outcome

def negation (node : Node) : Node := .logical .not [node]

/-- The disjunction of `a = v` over the values of a set test. -/
def anyOf (left : Node) (values : List PropertyValue) : Node :=
  .logical .or (values.map fun value => .compare .eq left (.literal value))

section
variable (floats : Floats)

def ordering (left right : Outcome) : Option Ordering :=
  left.value.bind fun left => right.value.bind fun right => compare floats left right

structure Laws (row : EventRow) (a b : Node) (values : List PropertyValue) : Prop where
  order : evaluate floats row (negation (.compare .gt a b)) = evaluate floats row (.compare .le a b)
  deMorgan : evaluate floats row (negation (.logical .and [a, b])) =
    evaluate floats row (.logical .or [negation a, negation b])
  membership : evaluate floats row (.set false a values) = evaluate floats row (anyOf a values)
  exclusion : evaluate floats row (.set true a values) =
    evaluate floats row (negation (.set false a values))
  exclusive : ∀ node, ¬(keeps floats node row = true ∧ keeps floats (negation node) row = true)
  unordered : ordering floats (evaluate floats row a) (evaluate floats row b) = none →
    ∀ node ∈ [.compare .gt a b, negation (.compare .gt a b), .compare .le a b],
      evaluate floats row node = .unknown
  unlisted : (∃ v ∈ values, ordering floats (evaluate floats row a) (.known v) = none) →
    (∀ v ∈ values, ordering floats (evaluate floats row a) (.known v) ≠ some .eq) →
    ∀ node ∈ [.set false a values, anyOf a values, .set true a values,
      negation (.set false a values)], evaluate floats row node = .unknown

/-- A set test that its values decide: a known operand equals one of them or compares with
them all, and an unknown one has a value to be asked about. -/
def Decided (operand : Outcome) (values : List PropertyValue) : Prop :=
  match operand with
  | .unknown => values ≠ []
  | .known left => (∃ v ∈ values, compare floats left v = some .eq) ∨
      ∀ v ∈ values, compare floats left v ≠ none

end

section
variable {floats : Floats} {row : EventRow} {a b : Node} {values : List PropertyValue}

theorem evaluateCompare_eq (op : CompareOp) (left right : Outcome) : evaluateCompare floats op left right =
      .ofTruth ((ordering floats left right).map (compareHolds op)) := by
  unfold evaluateCompare ordering
  cases left with
  | unknown => rfl
  | known x =>
    cases right with
    | unknown => rfl
    | known y =>
      simp only [Outcome.value, Option.bind_some]
      cases compare floats x y <;> rfl

theorem evaluateLogical_and (truths : List (Option Bool)) :
    evaluateLogical .and truths = .ofTruth (Kleene.conj truths) := by
  simp only [evaluateLogical, Kleene.conj_eq]
  split
  · rfl
  · split <;> rfl

theorem evaluateLogical_or (truths : List (Option Bool)) :
    evaluateLogical .or truths = .ofTruth (Kleene.disj truths) := by
  simp only [evaluateLogical, Kleene.disj_eq]
  split
  · rfl
  · split <;> rfl

theorem evaluate_negation (node : Node) :
    evaluate floats row (negation node) = .ofTruth (Kleene.neg (evaluate floats row node).truth) := by
  simp only [negation, evaluate, truths, evaluateLogical, head?_cons, Option.join_some]
  cases (evaluate floats row node).truth <;> rfl

theorem truths_map {α : Type} (form : α → Node) (items : List α) :
    truths floats row (items.map form) = items.map fun i => (evaluate floats row (form i)).truth := by
  induction items with
  | nil => rfl
  | cons item items ih => rw [map_cons, truths, ih, map_cons]

def equals (floats : Floats) (operand : Outcome) (value : PropertyValue) : Option Bool :=
  (ordering floats operand (.known value)).map (compareHolds .eq)

theorem evaluate_anyOf : evaluate floats row (anyOf a values) =
      .ofTruth (Kleene.disj (values.map (equals floats (evaluate floats row a)))) := by
  simp only [anyOf, evaluate, evaluateLogical_or, truths_map, evaluateCompare_eq,
    Outcome.truth_ofTruth]
  rfl

theorem equals_eq_some_true (left value : PropertyValue) :
    equals floats (.known left) value = some true ↔ compare floats left value = some .eq := by
  simp only [equals, ordering, Outcome.value, Option.bind_some]
  cases compare floats left value with
  | none => simp
  | some order => cases order <;> simp [compareHolds]

theorem equals_eq_none (left value : PropertyValue) :
    equals floats (.known left) value = none ↔ compare floats left value = none := by
  simp only [equals, ordering, Outcome.value, Option.bind_some, Option.map_eq_none_iff]

theorem evaluateSet_known (left : PropertyValue) : evaluateSet floats false (.known left) values =
      .ofTruth (some (decide (some true ∈ values.map (equals floats (.known left))))) := by
  have found : (values.any fun value => decide (compare floats left value = some .eq)) =
      decide (some true ∈ values.map (equals floats (.known left))) := by
    rw [Bool.eq_iff_iff, any_eq_true, decide_eq_true_iff, mem_map]
    simp only [decide_eq_true_eq, equals_eq_some_true]
  simp only [evaluateSet, Outcome.value, Bool.bne_false, found]
  rfl

theorem evaluateSet_negated (operand : Outcome) : evaluateSet floats true operand values =
      .ofTruth (Kleene.neg (evaluateSet floats false operand values).truth) := by
  cases operand with
  | unknown => rfl
  | known left => simp [evaluateSet, Outcome.value, Outcome.boolean, Outcome.truth, Kleene.neg,
      Outcome.ofTruth]

theorem disj_unknown :
    Kleene.disj (values.map (equals floats .unknown)) = if values = [] then some false else none := by
  have part : values.map (equals floats .unknown) = List.replicate values.length none := by
    rw [eq_replicate_iff]
    refine ⟨length_map .., fun t inside => ?_⟩
    obtain ⟨v, -, rfl⟩ := mem_map.mp inside
    rfl
  rw [part]
  cases values with
  | nil => rfl
  | cons v values => simp [Kleene.disj_eq, replicate_succ]

theorem membership_iff (operand : Outcome) : evaluateSet floats false operand values =
        .ofTruth (Kleene.disj (values.map (equals floats operand))) ↔ Decided floats operand values := by
  cases operand with
  | unknown =>
    rw [disj_unknown]
    by_cases empty : values = [] <;> simp [evaluateSet, Outcome.value, Decided, empty,
      Outcome.ofTruth, Outcome.boolean]
  | known left =>
    rw [evaluateSet_known]
    have asked := @Kleene.disj_eq_mem (values.map (equals floats (.known left)))
    have one : some true ∈ values.map (equals floats (.known left)) ↔
        ∃ v ∈ values, compare floats left v = some .eq := by
      simp only [mem_map, equals_eq_some_true]
    have every : none ∉ values.map (equals floats (.known left)) ↔
        ∀ v ∈ values, compare floats left v ≠ none := by
      simp only [mem_map, equals_eq_none, not_exists, not_and, ne_eq]
    rw [Decided, ← one, ← every, ← asked]
    exact ⟨fun same => (Outcome.ofTruth_injective same).symm, fun same => by rw [same]⟩

theorem compareHolds_le (order : Ordering) : compareHolds .le order = !compareHolds .gt order := by
  cases order <;> rfl

theorem not_and_negation (node : Node) : ¬(keeps floats node row = true ∧ keeps floats (negation node) row = true) := by
  rintro ⟨kept, dropped⟩
  rw [keeps, evaluate_negation, Outcome.truth_ofTruth] at dropped
  rw [keeps] at kept
  revert kept dropped
  cases (evaluate floats row node).truth with
  | none => decide
  | some value => cases value <;> decide

theorem evaluate_notGreater :
    evaluate floats row (negation (.compare .gt a b)) = evaluate floats row (.compare .le a b) := by
  simp only [evaluate_negation, evaluate, evaluateCompare_eq, Outcome.truth_ofTruth, Kleene.neg,
    Option.map_map]
  congr 2
  funext order
  rw [Function.comp, compareHolds_le]

theorem evaluate_notBoth : evaluate floats row (negation (.logical .and [a, b])) =
      evaluate floats row (.logical .or [negation a, negation b]) := by
  have left : evaluate floats row (.logical .and [a, b]) = .ofTruth (Kleene.conj
      [(evaluate floats row a).truth, (evaluate floats row b).truth]) := by
    simp only [evaluate, truths, evaluateLogical_and]
  have right : evaluate floats row (.logical .or [negation a, negation b]) = .ofTruth (Kleene.disj
      ([(evaluate floats row a).truth, (evaluate floats row b).truth].map Kleene.neg)) := by
    rw [evaluate, truths, truths, truths, evaluateLogical_or]
    simp only [evaluate_negation, Outcome.truth_ofTruth, map_cons, map_nil]
  rw [evaluate_negation, left, right, Outcome.truth_ofTruth, Kleene.neg_conj]

theorem evaluate_notIn : evaluate floats row (.set true a values) =
      evaluate floats row (negation (.set false a values)) := by
  rw [evaluate_negation, evaluate, evaluate, evaluateSet_negated]

theorem evaluate_set_anyOf : evaluate floats row (.set false a values) = evaluate floats row (anyOf a values) ↔
      Decided floats (evaluate floats row a) values := by
  rw [evaluate_anyOf, evaluate]
  exact membership_iff _

theorem evaluate_unordered (apart : ordering floats (evaluate floats row a) (evaluate floats row b) = none) :
    ∀ node ∈ [.compare .gt a b, negation (.compare .gt a b), .compare .le a b],
      evaluate floats row node = .unknown := by
  have compared : ∀ op, evaluate floats row (.compare op a b) = .unknown := by
    intro op
    rw [evaluate, evaluateCompare_eq, apart]
    rfl
  simp only [mem_cons, not_mem_nil, or_false]
  rintro node (rfl | rfl | rfl)
  · exact compared .gt
  · rw [evaluate_negation, compared]
    rfl
  · exact compared .le

/-- Where the set test is decided, a value that does not compare and none that is equal can
only come of an operand that is not there. -/
theorem evaluate_unlisted (decided : Decided floats (evaluate floats row a) values)
    (apart : ∃ v ∈ values, ordering floats (evaluate floats row a) (.known v) = none)
    (none : ∀ v ∈ values, ordering floats (evaluate floats row a) (.known v) ≠ some .eq) :
    ∀ node ∈ [.set false a values, anyOf a values, .set true a values,
      negation (.set false a values)], evaluate floats row node = .unknown := by
  have absent : evaluate floats row a = .unknown := by
    cases operand : evaluate floats row a with
    | unknown => rfl
    | known left =>
      rw [operand] at decided apart none
      obtain ⟨v, listed, differs⟩ := apart
      rcases decided with ⟨w, there, equal⟩ | every
      · exact (none w there equal).elim
      · exact (every v listed differs).elim
  have listed : evaluate floats row (.set false a values) = .unknown := by
    rw [evaluate, absent]
    rfl
  simp only [mem_cons, not_mem_nil, or_false]
  rintro node (rfl | rfl | rfl | rfl)
  · exact listed
  · rw [← evaluate_set_anyOf.mpr decided, listed]
  · rw [evaluate_notIn, evaluate_negation, listed]
    rfl
  · rw [evaluate_negation, listed]
    rfl

/-- The laws hold exactly where the values of the set test decide it. -/
theorem laws_iff_decided : Laws floats row a b values ↔ Decided floats (evaluate floats row a) values := by
  constructor
  · intro laws
    exact evaluate_set_anyOf.mp laws.membership
  · intro decided
    exact {
      order := evaluate_notGreater
      deMorgan := evaluate_notBoth
      membership := evaluate_set_anyOf.mpr decided
      exclusion := evaluate_notIn
      exclusive := not_and_negation
      unordered := evaluate_unordered
      unlisted := evaluate_unlisted decided }

end

def wordyRow : EventRow :=
  { EventRow.new 1 "event" "checkout-started" 0 with
    properties := [("attempts", .text "many", "client")] }

/-- `attempts not_in [5]` keeps a row that no comparison of `attempts` with 5 keeps. -/
theorem set_test_answers_over_another_type :
    ¬Laws machineFloats wordyRow (.field ⟨"attempts", none, none⟩) (.literal .null) [.integer 5] := by
  intro laws
  have operand : evaluate machineFloats wordyRow (.field ⟨"attempts", none, none⟩) =
      .known (.text "many") := by
    rw [evaluate]
    decide
  have decided := evaluate_set_anyOf.mp laws.membership
  rw [operand] at decided
  simp only [Decided, List.mem_singleton, exists_eq_left, forall_eq] at decided
  rcases decided with equal | ordered
  · cases equal
  · exact ordered rfl

end TallyOwl.Expr
