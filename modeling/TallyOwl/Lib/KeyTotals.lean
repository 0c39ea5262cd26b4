import Mathlib.Algebra.Order.BigOperators.Group.List
import Mathlib.Algebra.Order.Group.Nat
import TallyOwl.Lib.OrderedMap

/-! What the entries of a map weigh together, and how a running total follows the map. -/
namespace TallyOwl.Lib.OrderedMap
open List

variable {κ ν μ : Type*} [LinearOrder κ] {w : κ → ν → ℕ} {m : OrderedMap κ ν} {k : κ} {v : ν}

def total (w : κ → ν → ℕ) (m : OrderedMap κ ν) : ℕ := (m.entries.map fun x => w x.1 x.2).sum

theorem total_insert (w : κ → ν → ℕ) (m : OrderedMap κ ν) (k : κ) (v : ν) :
    total w (m.insert k v) + (m.get? k).elim 0 (w k) = total w m + w k v := by
  have cast (n : OrderedMap κ ν) : (total w n : ℤ) = (n.entries.map fun x => (w x.1 x.2 : ℤ)).sum := by
    unfold total
    induction n.entries with
    | nil => rfl
    | cons x rest ih => rw [map_cons, map_cons, sum_cons, sum_cons, Nat.cast_add, ih]
  have moved := sum_insert (fun k v => (w k v : ℤ)) m k v
  rw [← cast, ← cast] at moved
  cases held : m.get? k with
  | none =>
    rw [held, Option.elim_none] at moved
    rw [Option.elim_none]
    omega
  | some old =>
    rw [held, Option.elim_some] at moved
    rw [Option.elim_some]
    omega

theorem total_insert_some {old : ν} (held : m.get? k = some old) :
    total w (m.insert k v) + w k old = total w m + w k v := by
  have moved := total_insert w m k v
  rwa [held] at moved

theorem total_insert_none (absent : m.get? k = none) : total w (m.insert k v) = total w m + w k v := by
  have moved := total_insert w m k v
  rwa [absent] at moved

theorem le_total (held : m.get? k = some v) : w k v ≤ total w m :=
  single_le_sum (fun _ _ => Nat.zero_le _) _
    (mem_map.mpr ⟨(k, v), get?_eq_some.mp held, rfl⟩)

theorem total_filter_add (w : κ → ν → ℕ) (m : OrderedMap κ ν) (keep : κ → ν → Bool) :
    total w (m.filter keep) + total w (m.filter fun k v => !keep k v) = total w m := by
  change ((m.entries.filter fun x => keep x.1 x.2).map fun x => w x.1 x.2).sum +
    ((m.entries.filter fun x => !keep x.1 x.2).map fun x => w x.1 x.2).sum = (m.entries.map fun x => w x.1 x.2).sum
  induction m.entries with
  | nil => rfl
  | cons x rest ih =>
    rw [map_cons, sum_cons, ← ih]
    cases kept : keep x.1 x.2 with
    | true =>
      rw [filter_cons_of_pos (by simpa using kept), filter_cons_of_neg (by simp [kept]), map_cons,
        sum_cons, Nat.add_assoc]
    | false =>
      rw [filter_cons_of_neg (by simp [kept]), filter_cons_of_pos (by simp [kept]), map_cons,
        sum_cons]
      omega

theorem total_filter_of_zero {keep : κ → ν → Bool} (zero : ∀ k v, keep k v = false → w k v = 0) :
    total w (m.filter keep) = total w m := by
  have none : total w (m.filter fun k v => !keep k v) = 0 := by
    refine sum_eq_zero fun n inside => ?_
    obtain ⟨x, there, rfl⟩ := mem_map.mp inside
    exact zero x.1 x.2 (by simpa using (mem_filter.mp there).2)
  have whole := total_filter_add w m keep
  rwa [none, Nat.add_zero] at whole

theorem total_mapValues (w : κ → μ → ℕ) (m : OrderedMap κ ν) (f : κ → ν → μ) :
    total w (m.mapValues f) = total (fun k v => w k (f k v)) m := by
  simp [total, mapValues, Function.comp_def]

theorem total_add (w w' : κ → ν → ℕ) (m : OrderedMap κ ν) :
    total (fun k v => w k v + w' k v) m = total w m + total w' m := sum_map_add

theorem total_congr {w' : κ → ν → ℕ} (same : ∀ k v, m.get? k = some v → w k v = w' k v) : total w m = total w' m := by
  unfold total
  rw [map_congr_left fun x inside => same x.1 x.2 (get?_eq_some.mpr inside)]

end TallyOwl.Lib.OrderedMap
