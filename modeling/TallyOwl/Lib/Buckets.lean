import TallyOwl.Lib.OrderedMap

/-! Maps from a key to a list, grown at the end of one list at a time. -/
namespace TallyOwl.Lib.OrderedMap
open List

variable {κ ν α : Type*} [LinearOrder κ]

def bucket (m : OrderedMap κ (List ν)) (k : κ) : List ν := (m.get? k).getD []

def push (m : OrderedMap κ (List ν)) (k : κ) (v : ν) : OrderedMap κ (List ν) :=
  m.insert k (m.bucket k ++ [v])

@[simp] theorem bucket_empty (k : κ) : (∅ : OrderedMap κ (List ν)).bucket k = [] := rfl

theorem mem_bucket_push {m : OrderedMap κ (List ν)} {k k' : κ} {v w : ν} :
    w ∈ (m.push k v).bucket k' ↔ w ∈ m.bucket k' ∨ k' = k ∧ w = v := by
  rw [bucket, push, get?_insert]
  split
  · rename_i same
    subst same
    simp
  · rename_i other
    simp [bucket, other]

theorem mem_bucket_foldl_push {xs : List α} {key : α → κ} {value : α → ν} {m : OrderedMap κ (List ν)}
    {k : κ} {w : ν} : w ∈ (xs.foldl (fun m x => m.push (key x) (value x)) m).bucket k ↔
      w ∈ m.bucket k ∨ ∃ x ∈ xs, key x = k ∧ w = value x := by
  induction xs generalizing m with
  | nil => simp
  | cons x rest ih =>
    rw [foldl_cons, ih, mem_bucket_push, or_assoc]
    simp [eq_comm]

def gathered (keyOf : α → Option κ) (xs : List α) (m : OrderedMap κ (List α)) : OrderedMap κ (List α) :=
  xs.foldl (fun m x => match keyOf x with
    | none => m
    | some k => m.push k x) m

theorem bucket_gathered (keyOf : α → Option κ) (xs : List α) (m : OrderedMap κ (List α)) (k : κ) :
    (gathered keyOf xs m).bucket k = m.bucket k ++ xs.filter fun x => keyOf x = some k := by
  unfold gathered
  induction xs generalizing m with
  | nil => simp
  | cons x rest ih =>
    rw [foldl_cons, ih]
    cases named : keyOf x with
    | none => simp [named]
    | some other =>
      by_cases same : k = other
      · simp [named, same, push, bucket, get?_insert]
      · simp [named, push, bucket, get?_insert, same, Ne.symm same]

theorem get?_gathered (keyOf : α → Option κ) (xs : List α) (k : κ) : (gathered keyOf xs ∅).get? k =
    if xs.filter (fun x => keyOf x = some k) = [] then none else some (xs.filter fun x => keyOf x = some k) := by
  have filled : ∀ m : OrderedMap κ (List α), (∀ k, m.get? k ≠ some []) → (gathered keyOf xs m).get? k ≠ some [] := by
    unfold gathered
    induction xs with
    | nil => exact fun m filled => filled k
    | cons x rest ih =>
      refine fun m filled => ih _ fun k' => ?_
      dsimp only
      cases keyOf x with
      | none => exact filled k'
      | some other =>
        simp only [push, get?_insert]
        split_ifs
        · simp
        · exact filled k'
  have held := bucket_gathered keyOf xs ∅ k
  have full := filled ∅ fun _ none => by cases none
  rw [bucket_empty, nil_append, bucket] at held
  rw [← held]
  cases found : (gathered keyOf xs ∅).get? k with
  | none => rfl
  | some ys =>
    rw [found] at full
    exact (if_neg fun none => full (congrArg some none)).symm

theorem length_push (m : OrderedMap κ (List ν)) (k : κ) (v : ν) :
    (m.push k v).entries.length = if m.get? k = none then m.entries.length + 1 else m.entries.length :=
  length_insert m k _

theorem perm_values_push (m : OrderedMap κ (List ν)) (k : κ) (v : ν) :
    (m.push k v).values.flatten.Perm (m.values.flatten ++ [v]) := by
  classical
  refine perm_iff_count.mpr fun w => ?_
  have total : ∀ m : OrderedMap κ (List ν), ((m.values.flatten.count w : ℕ) : ℤ) =
      (m.entries.map fun x => (x.2.count w : ℤ)).sum := by
    intro m
    rw [count_flatten, values, map_map]
    induction m.entries with
    | nil => rfl
    | cons x rest ih => simp only [map_cons, sum_cons, Nat.cast_add, ih, Function.comp_apply]
  have moved := sum_insert (fun _ held => (held.count w : ℤ)) m k (m.bucket k ++ [v])
  rw [← total, ← total, count_append, bucket] at moved
  rw [push, bucket, count_append]
  cases found : m.get? k with
  | none =>
    simp only [found, Option.elim_none, Option.getD_none, count_nil] at moved ⊢
    omega
  | some held =>
    simp only [found, Option.elim_some, Option.getD_some] at moved ⊢
    omega

theorem perm_values_foldl_push {xs : List α} {key : α → κ} {value : α → ν} {m : OrderedMap κ (List ν)} :
    (xs.foldl (fun m x => m.push (key x) (value x)) m).values.flatten.Perm (m.values.flatten ++ xs.map value) := by
  induction xs generalizing m with
  | nil => simp
  | cons x rest ih =>
    rw [foldl_cons, map_cons, ← singleton_append, ← append_assoc]
    exact ih.trans ((perm_values_push m _ _).append_right _)

theorem get?_filter_mapValues {μ : Type*} (m : OrderedMap κ ν) (f : κ → ν → μ) (keep : μ → Bool) (k : κ) :
    ((m.mapValues f).filter fun _ kept => keep kept).get? k = ((m.get? k).map (f k)).filter keep := by
  ext v
  rw [get?_eq_some, mem_filter, ← get?_eq_some, get?_mapValues, Option.filter_eq_some_iff]

theorem flatMap_entries {μ : Type*} [DecidableEq α] (m : OrderedMap κ μ) (f : κ → μ → List α) :
    (m.entries.flatMap fun e => f e.1 e.2) =
      ((m.mapValues f).filter fun _ kept => decide (kept ≠ [])).values.flatten := by
  change _ = (((m.entries.map fun e => (e.1, f e.1 e.2)).filter fun e => decide (e.2 ≠ [])).map Prod.snd).flatten
  induction m.entries with
  | nil => rfl
  | cons e rest ih =>
    rw [flatMap_cons, ih, map_cons, filter_cons]
    by_cases none : f e.1 e.2 = [] <;> simp [none]

/-- What the entries of two maps give in the order of their keys is the same where each key gives the same. -/
theorem flatMap_entries_congr {μ : Type*} {m : OrderedMap κ ν} {n : OrderedMap κ μ} {f : κ → ν → List α}
    {g : κ → μ → List α} (same : ∀ k, ((m.get? k).map (f k)).getD [] = ((n.get? k).map (g k)).getD []) :
    (m.entries.flatMap fun e => f e.1 e.2) = n.entries.flatMap fun e => g e.1 e.2 := by
  classical
  rw [flatMap_entries m f, flatMap_entries n g]
  refine congrArg (fun m : OrderedMap κ (List α) => m.values.flatten) (ext_of_get? fun k => ?_)
  have both := same k
  rw [get?_filter_mapValues, get?_filter_mapValues]
  cases first : (m.get? k).map (f k) with
  | none =>
    cases second : (n.get? k).map (g k) with
    | none => rfl
    | some ys =>
      rw [first, second, Option.getD_none, Option.getD_some] at both
      rw [← both]
      rfl
  | some xs =>
    cases second : (n.get? k).map (g k) with
    | none =>
      rw [first, second, Option.getD_none, Option.getD_some] at both
      rw [both]
      rfl
    | some ys =>
      rw [first, second, Option.getD_some, Option.getD_some] at both
      rw [both]

theorem flatMap_entries_at (m : OrderedMap κ ν) (k : κ) (f : ν → List α) :
    (m.entries.flatMap fun e => if e.1 = k then f e.2 else []) = ((m.get? k).map f).getD [] := by
  have same (n : OrderedMap κ ν) (here : n.get? k = m.get? k) :
      (m.entries.flatMap fun e => if e.1 = k then f e.2 else []) =
        n.entries.flatMap fun e => if e.1 = k then f e.2 else [] := by
    refine flatMap_entries_congr (f := fun k' v => if k' = k then f v else [])
      (g := fun k' v => if k' = k then f v else []) fun k' => ?_
    by_cases is : k' = k
    · rw [is, here]
    · cases m.get? k' <;> cases n.get? k' <;> simp [is]
  cases found : m.get? k with
  | none => exact (same ∅ (by rw [found]; rfl)).trans rfl
  | some v =>
    rw [same ((∅ : OrderedMap κ ν).insert k v) (by rw [found, get?_insert, if_pos rfl])]
    simp [insert, insertEntry]

end TallyOwl.Lib.OrderedMap
