import Mathlib.Algebra.GroupWithZero.Nat
import Mathlib.Algebra.Order.BigOperators.Group.List
import Mathlib.Data.List.Nodup

/-! Whole units shared out by weights. Every share is rounded down, and what is left over goes to the largest
remainders, one unit each. -/
namespace TallyOwl.Lib
open List

section
variable (units : Nat) (weights : List Nat)

def floors : List Nat := weights.map fun w => units * w / weights.sum

def remainders : List Nat := weights.map fun w => units * w % weights.sum

def bump (order : List Nat) (parts : List Nat) : List Nat :=
  order.foldl (fun parts i => parts.modify i (· + 1)) parts

/-- The shares, where the first of an order get the units that are left. -/
def apportion (order : List Nat) : List Nat :=
  bump (order.take (units - (floors units weights).sum)) (floors units weights)

/-- An order of the places of a list by their numbers, largest first. -/
structure Largest (order numbers : List Nat) : Prop where
  perm : order.Perm (List.range numbers.length)
  sorted : order.Pairwise fun i j => numbers.getD j 0 ≤ numbers.getD i 0

variable {units weights} {order parts : List Nat}

theorem length_bump : (bump order parts).length = parts.length := by
  induction order generalizing parts with
  | nil => rfl
  | cons i order ih =>
    have rest := @ih (parts.modify i (· + 1))
    rw [length_modify] at rest
    exact rest

theorem getElem?_bump (i : Nat) : (bump order parts)[i]? = parts[i]?.map (· + order.count i) := by
  induction order generalizing parts with
  | nil => simp [bump]
  | cons j order ih =>
    have rest := @ih (parts.modify j (· + 1))
    rw [getElem?_modify] at rest
    refine rest.trans ?_
    by_cases same : j = i
    · subst same
      cases parts[j]? with
      | none => rfl
      | some part => simp [Nat.add_comm, Nat.add_left_comm]
    · simp [same, count_cons_of_ne same]

theorem sum_modify {i : Nat} (inside : i < parts.length) : (parts.modify i (· + 1)).sum = parts.sum + 1 := by
  induction parts generalizing i with
  | nil => cases inside
  | cons part parts ih =>
    cases i with
    | zero =>
      simp only [modify_zero_cons, sum_cons]
      omega
    | succ i =>
      have rest := ih (Nat.lt_of_succ_lt_succ inside)
      simp only [modify_succ_cons, sum_cons, rest]
      omega

theorem sum_bump (inside : ∀ i ∈ order, i < parts.length) : (bump order parts).sum = parts.sum + order.length := by
  induction order generalizing parts with
  | nil => rfl
  | cons i order ih =>
    obtain ⟨here, rest⟩ := forall_mem_cons.mp inside
    have later := @ih (parts.modify i (· + 1)) (by rwa [length_modify])
    rw [sum_modify here] at later
    exact later.trans (by rw [length_cons]; omega)

theorem mul_sum_floors (units total : Nat) (weights : List Nat) :
    total * (weights.map fun w => units * w / total).sum + (weights.map fun w => units * w % total).sum =
      units * weights.sum := by
  induction weights with
  | nil => rfl
  | cons w weights ih =>
    have here := Nat.div_add_mod (units * w) total
    simp only [map_cons, sum_cons, Nat.mul_add] at ih ⊢
    omega

theorem floors_le (weighty : 0 < weights.sum) : (floors units weights).sum ≤ units := by
  have whole := mul_sum_floors units weights.sum weights
  refine Nat.le_of_mul_le_mul_left ?_ weighty
  rw [Nat.mul_comm _ units, ← whole, floors]
  exact Nat.le_add_right _ _

theorem sum_le_countP {bound : Nat} {numbers : List Nat} (small : ∀ r ∈ numbers, r < bound) :
    numbers.sum ≤ numbers.countP (0 < ·) * (bound - 1) := by
  induction numbers with
  | nil => exact Nat.zero_le _
  | cons r numbers ih =>
    obtain ⟨here, rest⟩ := forall_mem_cons.mp small
    have later := ih rest
    rw [sum_cons, countP_cons]
    by_cases zero : r = 0
    · simpa [zero] using later
    · have positive : 0 < r := Nat.pos_of_ne_zero zero
      simp only [positive, decide_true, if_true, Nat.add_mul, Nat.one_mul]
      omega

theorem mul_left_le (weighty : 0 < weights.sum) : weights.sum * (units - (floors units weights).sum) ≤
    (remainders units weights).countP (0 < ·) * (weights.sum - 1) := by
  have whole := mul_sum_floors units weights.sum weights
  have rest : weights.sum * (units - (floors units weights).sum) = (remainders units weights).sum := by
    rw [Nat.mul_sub, Nat.mul_comm _ units, ← whole, floors, remainders]
    omega
  rw [rest]
  refine sum_le_countP fun r inside => ?_
  obtain ⟨w, -, rfl⟩ := mem_map.mp inside
  exact Nat.mod_lt _ weighty

theorem left_le (weighty : 0 < weights.sum) :
    units - (floors units weights).sum ≤ (remainders units weights).countP (0 < ·) := by
  refine Nat.le_of_mul_le_mul_left ((mul_left_le weighty).trans ?_) weighty
  rw [Nat.mul_comm weights.sum]
  exact Nat.mul_le_mul_left _ (Nat.sub_le _ _)

theorem left_lt (weighty : 0 < weights.sum) : units - (floors units weights).sum < weights.length := by
  have most : (remainders units weights).countP (0 < ·) ≤ weights.length :=
    countP_le_length.trans (length_map _).le
  have many : 0 < weights.length := length_pos_iff.mpr fun empty => by simp [empty] at weighty
  refine @Nat.lt_of_mul_lt_mul_left weights.sum _ _ ?_
  calc weights.sum * (units - (floors units weights).sum)
      ≤ (remainders units weights).countP (0 < ·) * (weights.sum - 1) := mul_left_le weighty
    _ ≤ weights.length * (weights.sum - 1) := Nat.mul_le_mul_right _ most
    _ < weights.length * weights.sum := Nat.mul_lt_mul_of_pos_left (by omega) many
    _ = weights.sum * weights.length := Nat.mul_comm _ _

theorem Largest.positive {numbers : List Nat} (largest : Largest order numbers) {most i : Nat}
    (few : most ≤ numbers.countP (0 < ·)) (first : i ∈ order.take most) : 0 < numbers.getD i 0 := by
  by_contra none
  obtain ⟨k, short, here⟩ := mem_iff_getElem.mp first
  rw [length_take] at short
  rw [getElem_take] at here
  -- nothing from this place on counts
  have zero : ∀ j ∈ order.drop k, numbers.getD j 0 = 0 := by
    rw [drop_eq_getElem_cons (by omega), here]
    have rest := largest.sorted.sublist (drop_sublist k order)
    rw [drop_eq_getElem_cons (by omega), here] at rest
    refine forall_mem_cons.mpr ⟨by omega, fun j later => ?_⟩
    have least := (pairwise_cons.mp rest).1 j later
    omega
  have listed : numbers = (List.range numbers.length).map fun j => numbers.getD j 0 := by
    refine ext_getElem (by simp) fun j here there => ?_
    simp only [getElem_map, getElem_range, getD_eq_getElem?_getD, getElem?_eq_getElem here,
      Option.getD_some]
  have counted : numbers.countP (0 < ·) = order.countP fun j => 0 < numbers.getD j 0 := by
    rw [largest.perm.countP_eq]
    conv_lhs => rw [listed, countP_map]
    rfl
  have before : (order.take k).countP (fun j => 0 < numbers.getD j 0) ≤ k :=
    countP_le_length.trans (length_take_le _ _)
  have after : (order.drop k).countP (fun j => 0 < numbers.getD j 0) = 0 :=
    countP_eq_zero.mpr fun j later => by rw [zero j later]; decide
  rw [← take_append_drop k order, countP_append, after] at counted
  omega

theorem apportion_spec (weighty : 0 < weights.sum) (largest : Largest order (remainders units weights)) :
    (apportion units weights order).length = weights.length ∧ (apportion units weights order).sum = units ∧
      ∀ (i w : Nat), weights[i]? = some w → ∃ part, (apportion units weights order)[i]? = some part ∧
        units * w < (part + 1) * weights.sum ∧ part * weights.sum < units * w + weights.sum := by
  have low := @floors_le units weights weighty
  have few := @left_le units weights weighty
  have long : (floors units weights).length = weights.length := length_map _
  have members {i : Nat} (inside : i ∈ order) : i < weights.length := by
    simpa [remainders] using largest.perm.mem_iff.mp inside
  have size : order.length = weights.length := by simpa [remainders] using largest.perm.length_eq
  have enough : units - (floors units weights).sum ≤ order.length := by
    refine few.trans (countP_le_length.trans (le_of_eq ?_))
    rw [remainders, length_map, size]
  refine ⟨?_, ?_, fun i w there => ?_⟩
  · rw [apportion, length_bump, long]
  · rw [apportion, sum_bump fun i inside => long ▸ members (mem_of_mem_take inside), length_take]
    omega
  · set first := order.take (units - (floors units weights).sum)
    have share : (floors units weights)[i]? = some (units * w / weights.sum) := by
      rw [floors, getElem?_map, there]
      rfl
    refine ⟨units * w / weights.sum + first.count i, by rw [apportion, getElem?_bump, share]; rfl, ?_⟩
    have here := Nat.div_add_mod (units * w) weights.sum
    have less := Nat.mod_lt (units * w) weighty
    rw [Nat.mul_comm] at here
    by_cases given : i ∈ first
    · have apart : first.Nodup := (largest.perm.nodup_iff.mpr nodup_range).sublist (take_sublist _ _)
      have one : first.count i = 1 :=
        le_antisymm (nodup_iff_count_le_one.mp apart i) (count_pos_iff.mpr given)
      have positive := largest.positive few given
      rw [remainders, getD_eq_getElem?_getD, getElem?_map, there, Option.map_some, Option.getD_some]
        at positive
      rw [one, Nat.add_mul, Nat.add_mul, Nat.one_mul]
      omega
    · simp only [count_eq_zero_of_not_mem given, Nat.add_zero, Nat.add_mul, Nat.one_mul]
      omega

end
end TallyOwl.Lib
