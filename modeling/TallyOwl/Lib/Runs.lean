import Mathlib.Logic.Relation
import Mathlib.Tactic.Common

/-! Runs of a partial step function. A run is a finite list of events, each one
enabled where it is taken; `ok` restricts which events a run may take in which
state. Nothing here fixes what a state or an event is. -/
namespace TallyOwl.Lib
open List

variable {σ ε : Type*} {step : σ → ε → Option σ} {ok : σ → ε → Prop}

/-- The states a run from `start` passes through when every step meets `ok`. -/
inductive Reach (step : σ → ε → Option σ) (ok : σ → ε → Prop) (start : σ) : σ → Prop where
  | start : Reach step ok start start
  | step {s t : σ} (e : ε) (before : Reach step ok start s) (allowed : ok s e)
      (next : step s e = some t) : Reach step ok start t

def anyStep (_ : σ) (_ : ε) : Prop := True

instance (s : σ) (e : ε) : Decidable (anyStep s e) := inferInstanceAs (Decidable True)

theorem Reach.invariant {start s : σ} (holds : σ → Prop) (init : holds start)
    (keep : ∀ s e t, holds s → ok s e → step s e = some t → holds t) (run : Reach step ok start s) : holds s := by
  induction run with
  | start => exact init
  | step e _ allowed next ih => exact keep _ e _ ih allowed next

theorem Reach.trans {a b c : σ} (first : Reach step ok a b) (rest : Reach step ok b c) : Reach step ok a c := by
  induction rest with
  | start => exact first
  | step e _ allowed next ih => exact .step e ih allowed next

theorem Reach.weaken {ok' : σ → ε → Prop} {start s : σ} (weaker : ∀ s e, ok s e → ok' s e)
    (run : Reach step ok start s) : Reach step ok' start s := by
  induction run with
  | start => exact .start
  | step e _ allowed next ih => exact .step e ih (weaker _ _ allowed) next

def exec (step : σ → ε → Option σ) : σ → List ε → Option σ
  | s, [] => some s
  | s, e :: es => (step s e).bind fun t => exec step t es

/-- The step function cut down to the events `ok` allows. -/
def guarded (step : σ → ε → Option σ) (ok : σ → ε → Prop) [∀ s e, Decidable (ok s e)]
    (s : σ) (e : ε) : Option σ :=
  if ok s e then step s e else none

theorem Reach.of_exec [∀ s e, Decidable (ok s e)] {s t : σ} {es : List ε}
    (ran : exec (guarded step ok) s es = some t) : Reach step ok s t := by
  induction es generalizing s with
  | nil =>
    obtain rfl : s = t := by simpa [exec] using ran
    exact .start
  | cons e es ih =>
    simp only [exec, Option.bind_eq_some_iff] at ran
    obtain ⟨u, first, rest⟩ := ran
    unfold guarded at first
    split at first
    · rename_i allowed
      exact Reach.trans (.step e .start allowed first) (ih rest)
    · cases first

theorem Reach.of_exec_any [∀ s e, Decidable (ok s e)] {s : σ} {es : List ε} {p : σ → Bool}
    (ran : (exec (guarded step ok) s es).any p = true) : ∃ t, Reach step ok s t ∧ p t = true := by
  cases last : exec (guarded step ok) s es with
  | none => simp [last] at ran
  | some t => exact ⟨t, Reach.of_exec last, by simpa [last] using ran⟩

/-! Parties kept in a list, each under its place. -/

section
variable {α : Type*} {xs : List α} {i j : Nat} {c d : α}

theorem getElem?_set_cases (found : (xs.set i c)[j]? = some d) : (j = i ∧ d = c) ∨ (j ≠ i ∧ xs[j]? = some d) := by
  rw [getElem?_set] at found
  split at found
  · rename_i same
    split at found
    · exact .inl ⟨same.symm, (Option.some.inj found).symm⟩
    · cases found
  · rename_i other
    exact .inr ⟨fun h => other h.symm, found⟩

theorem getElem?_push_cases (found : (xs ++ [c])[j]? = some d) :
    (j = xs.length ∧ d = c) ∨ (j < xs.length ∧ xs[j]? = some d) := by
  rw [getElem?_append] at found
  split at found
  · exact .inr ⟨‹_›, found⟩
  · rename_i past
    rw [getElem?_singleton] at found
    split at found
    · exact .inl ⟨by omega, (Option.some.inj found).symm⟩
    · cases found

theorem mem_set_of_mem {a : α} (inside : a ∈ xs) (there : xs[i]? = some c) (other : a ≠ c) : a ∈ xs.set i d := by
  obtain ⟨k, found⟩ := mem_iff_getElem?.mp inside
  have apart : i ≠ k := by
    rintro rfl
    rw [there] at found
    exact other (Option.some.inj found).symm
  exact mem_iff_getElem?.mpr ⟨k, (getElem?_set_ne apart).trans found⟩

theorem perm_flatMap_set {β : Type*} {f : α → List β} {ys : List β} (there : xs[i]? = some c)
    (parts : (f c).Perm (ys ++ f d)) : (xs.flatMap f).Perm (ys ++ (xs.set i d).flatMap f) := by
  induction xs generalizing i with
  | nil => cases there
  | cons x rest ih =>
    cases i with
    | zero =>
      obtain rfl : x = c := by simpa using there
      rw [set_cons_zero, flatMap_cons, flatMap_cons, ← append_assoc]
      exact parts.append_right _
    | succ i =>
      rw [set_cons_succ, flatMap_cons, flatMap_cons]
      exact ((ih there).append_left _).trans (perm_append_comm_assoc _ _ _)

theorem perm_flatMap_eraseIdx {β : Type*} {f : α → List β} (there : xs[i]? = some c) :
    (xs.flatMap f).Perm (f c ++ (xs.eraseIdx i).flatMap f) := by
  induction xs generalizing i with
  | nil => cases there
  | cons x rest ih =>
    cases i with
    | zero =>
      obtain rfl : x = c := by simpa using there
      exact .refl _
    | succ i =>
      rw [eraseIdx_cons_succ, flatMap_cons, flatMap_cons]
      exact ((ih there).append_left _).trans (perm_append_comm_assoc _ _ _)

theorem two_le_countP {p : α → Bool} (first : xs[i]? = some c) (second : xs[j]? = some d) (apart : j ≠ i)
    (meets : p c = true) (also : p d = true) : 2 ≤ xs.countP p := by
  induction xs generalizing i j with
  | nil => cases first
  | cons x rest ih =>
    rw [countP_cons]
    cases i with
    | zero =>
      obtain rfl : x = c := by simpa using first
      cases j with
      | zero => exact absurd rfl apart
      | succ j =>
        have later : 0 < rest.countP p := countP_pos_iff.mpr ⟨d, mem_of_getElem? second, also⟩
        rw [if_pos meets]
        omega
    | succ i =>
      cases j with
      | zero =>
        obtain rfl : x = d := by simpa using second
        have later : 0 < rest.countP p := countP_pos_iff.mpr ⟨c, mem_of_getElem? first, meets⟩
        rw [if_pos also]
        omega
      | succ j =>
        have later := ih first second fun same => apart (congrArg Nat.succ same)
        omega

theorem eq_of_nodup_flatMap {β : Type*} {f : α → List β} {x : β} (nodup : (xs.flatMap f).Nodup)
    (first : xs[i]? = some c) (second : xs[j]? = some d) (atFirst : x ∈ f c) (atSecond : x ∈ f d) : i = j := by
  induction xs generalizing i j with
  | nil => cases first
  | cons y rest ih =>
    rw [flatMap_cons] at nodup
    obtain ⟨-, later, apart⟩ := List.nodup_append.mp nodup
    cases i with
    | zero =>
      obtain rfl : y = c := by simpa using first
      cases j with
      | zero => rfl
      | succ j =>
        have later : rest[j]? = some d := second
        have inside := mem_flatMap.mpr ⟨d, mem_of_getElem? later, atSecond⟩
        exact absurd rfl (apart x atFirst x inside)
    | succ i =>
      cases j with
      | zero =>
        obtain rfl : y = d := by simpa using second
        have later : rest[i]? = some c := first
        have inside := mem_flatMap.mpr ⟨c, mem_of_getElem? later, atFirst⟩
        exact absurd rfl (apart x atSecond x inside)
      | succ j => rw [ih later first second]

theorem perm_flatMap_filter {κ : Type*} [DecidableEq κ] {f : α → κ} {keys : List κ} (nodup : keys.Nodup)
    (covers : ∀ x ∈ xs, f x ∈ keys) : (keys.flatMap fun k => xs.filter fun x => f x = k).Perm xs := by
  induction keys generalizing xs with
  | nil =>
    have empty : xs = [] := eq_nil_iff_forall_not_mem.mpr fun x inside => by
      simpa using covers x inside
    rw [empty]
    rfl
  | cons key keys ih =>
    obtain ⟨fresh, later⟩ := nodup_cons.mp nodup
    set rest := xs.filter fun x => !decide (f x = key)
    have others : (keys.flatMap fun k => xs.filter fun x => f x = k) =
        keys.flatMap fun k => rest.filter fun x => f x = k := by
      rw [flatMap_def, flatMap_def]
      refine congrArg List.flatten (map_congr_left fun k inside => ?_)
      rw [filter_filter]
      refine filter_congr fun x _ => ?_
      by_cases same : f x = k
      · have different : k ≠ key := fun equal => fresh (equal ▸ inside)
        simp [same, different]
      · simp [same]
    rw [flatMap_cons, others]
    have covered : ∀ x ∈ rest, f x ∈ keys := by
      intro x inside
      obtain ⟨there, other⟩ := List.mem_filter.mp inside
      rcases mem_cons.mp (covers x there) with same | found
      · simp [same] at other
      · exact found
    exact ((ih later covered).append_left _).trans (filter_append_perm _ xs)

end

/-! Runs of a total step function. -/

section
variable {move : σ → ε → σ} {holds : σ → Prop} {meets other : σ → ε → Prop} {s : σ} {es : List ε}

def Along (move : σ → ε → σ) (meets : σ → ε → Prop) : σ → List ε → Prop
  | _, [] => True
  | s, e :: es => meets s e ∧ Along move meets (move s e) es

/-- The state behind every event of a list has a property, and so has the first. -/
def Throughout (move : σ → ε → σ) (holds : σ → Prop) : σ → List ε → Prop
  | s, [] => holds s
  | s, e :: es => holds s ∧ Throughout move holds (move s e) es

theorem throughout_first (throughout : Throughout move holds s es) : holds s := by
  cases es with
  | nil => exact throughout
  | cons e es => exact throughout.1

/-- Where an event keeps a property exactly under a condition, the property holds throughout
a run exactly where every event meets the condition. What a step needs besides may speak of
the events to come. -/
theorem throughout_iff_along {needs : σ → List ε → Prop}
    (step : ∀ s e es, needs s (e :: es) → holds s → (holds (move s e) ↔ meets s e))
    (next : ∀ s e es, needs s (e :: es) → holds s → holds (move s e) → needs (move s e) es)
    (ready : needs s es) (first : holds s) : Throughout move holds s es ↔ Along move meets s es := by
  induction es generalizing s with
  | nil => exact iff_of_true first trivial
  | cons e es ih =>
    constructor
    · rintro ⟨-, later⟩
      have second := throughout_first later
      exact ⟨(step _ _ _ ready first).mp second, (ih (next _ _ _ ready first second) second).mp later⟩
    · rintro ⟨fine, later⟩
      have second := (step _ _ _ ready first).mpr fine
      exact ⟨first, (ih (next _ _ _ ready first second) second).mpr later⟩

theorem along_congr {needs : σ → List ε → Prop} (step : ∀ s e es, needs s (e :: es) → (meets s e ↔ other s e))
    (next : ∀ s e es, needs s (e :: es) → needs (move s e) es) (ready : needs s es) :
    Along move meets s es ↔ Along move other s es := by
  induction es generalizing s with
  | nil => exact Iff.rfl
  | cons e es ih => exact and_congr (step _ _ _ ready) (ih (next _ _ _ ready))

theorem along_append {first second : List ε} : Along move meets s (first ++ second) ↔
    Along move meets s first ∧ Along move meets (first.foldl move s) second := by
  induction first generalizing s with
  | nil => simp [Along]
  | cons e es ih =>
    have rest := @ih (move s e)
    simp only [cons_append, Along, rest, and_assoc, foldl_cons]

/-- A property that every event keeps under a condition holds behind a run that meets it. -/
theorem Along.kept {needs : σ → Prop} (along : Along move meets s es)
    (step : ∀ s e, needs s → meets s e → needs (move s e)) (ready : needs s) : needs (es.foldl move s) := by
  induction es generalizing s with
  | nil => exact ready
  | cons e es ih => exact ih along.2 (step s e ready along.1)

end

end TallyOwl.Lib
