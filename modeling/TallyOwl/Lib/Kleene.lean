import Mathlib.Tactic.Common

/-! Truth with a third value, on `Option Bool`. A conjunction is false where one part is
false, and true where every part is true; a disjunction is its mirror image. -/
namespace TallyOwl.Lib.Kleene

def neg (truth : Option Bool) : Option Bool := truth.map not

def conj (truths : List (Option Bool)) : Option Bool :=
  if truths.any (· = some false) then some false
  else if truths.all (· = some true) then some true
  else none

def disj (truths : List (Option Bool)) : Option Bool :=
  if truths.any (· = some true) then some true
  else if truths.all (· = some false) then some false
  else none

section
variable {truth : Option Bool} {truths : List (Option Bool)}

theorem any_eq_some (value : Bool) : truths.any (· = some value) = true ↔ some value ∈ truths := by
  simp

theorem conj_eq (truths : List (Option Bool)) : conj truths =
    if some false ∈ truths then some false else if truths.all (· = some true) then some true else none := by
  simp only [conj, any_eq_some]

theorem disj_eq (truths : List (Option Bool)) : disj truths =
    if some true ∈ truths then some true else if truths.all (· = some false) then some false else none := by
  simp only [disj, any_eq_some]

theorem neg_eq_some (value : Bool) : neg truth = some value ↔ truth = some !value := by
  cases truth with
  | none => simp [neg]
  | some t => cases t <;> cases value <;> decide

theorem mem_map_neg (value : Bool) : some value ∈ truths.map neg ↔ some (!value) ∈ truths := by
  rw [List.mem_map]
  constructor
  · rintro ⟨t, inside, same⟩
    rwa [← (neg_eq_some value).mp same]
  · intro inside
    exact ⟨_, inside, (neg_eq_some value).mpr rfl⟩

theorem all_map_neg (value : Bool) : (truths.map neg).all (· = some value) = truths.all (· = some !value) := by
  simp only [List.all_map, Function.comp_def, neg_eq_some]

theorem neg_conj (truths : List (Option Bool)) : neg (conj truths) = disj (truths.map neg) := by
  simp only [conj_eq, disj_eq, mem_map_neg, all_map_neg, Bool.not_true, Bool.not_false]
  split
  · rfl
  · split <;> rfl

/-- A disjunction is whether one part is true, where one is or where every part has an answer. -/
theorem disj_eq_mem : disj truths = some (decide (some true ∈ truths)) ↔ some true ∈ truths ∨ none ∉ truths := by
  by_cases inside : some true ∈ truths
  · simp [disj_eq, inside]
  · have part : ∀ t ∈ truths, t = some false ↔ t ≠ none := by
      intro t there
      cases t with
      | none => simp
      | some value =>
        cases value with
        | false => simp
        | true => exact absurd there inside
    have every : (∀ t ∈ truths, t = some false) ↔ none ∉ truths := by
      constructor
      · intro all absent
        exact (part _ absent).mp (all _ absent) rfl
      · intro absent t there
        exact (part t there).mpr fun none => absent (none ▸ there)
    simp only [disj_eq, List.all_eq_true, decide_eq_true_eq, every, decide_false,
      inside, false_or]
    by_cases absent : none ∈ truths <;> simp [absent]

end

end TallyOwl.Lib.Kleene
