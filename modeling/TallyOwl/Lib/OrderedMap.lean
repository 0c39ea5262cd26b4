import Mathlib.Algebra.BigOperators.Group.List.Basic
import Mathlib.Data.Prod.Lex
import Mathlib.Tactic.Abel

/-! Maps kept as a list of entries in ascending key order, one entry for a key: the
ordered maps of a standard library, and the key ranges of an ordered store. -/
open List

namespace TallyOwl.Lib

variable {κ ν : Type*} [LinearOrder κ]

structure OrderedMap (κ ν : Type*) [LinearOrder κ] where
  entries : List (κ × ν)
  ascending : entries.Pairwise fun a b => a.1 < b.1

def insertEntry (k : κ) (v : ν) : List (κ × ν) → List (κ × ν)
  | [] => [(k, v)]
  | x :: rest =>
      if k < x.1 then (k, v) :: x :: rest
      else if x.1 < k then x :: insertEntry k v rest
      else (k, v) :: rest

theorem mem_insertEntry {k : κ} {v : ν} {x : κ × ν} {entries : List (κ × ν)}
    (ascending : entries.Pairwise fun a b => a.1 < b.1) :
    x ∈ insertEntry k v entries ↔ x = (k, v) ∨ (x ∈ entries ∧ x.1 ≠ k) := by
  induction entries with
  | nil => simp [insertEntry]
  | cons y rest ih =>
    obtain ⟨first, later⟩ := pairwise_cons.mp ascending
    have above : ∀ z ∈ rest, k < y.1 ∨ k = y.1 → z.1 ≠ k := by
      rintro z inside small rfl
      rcases small with less | same
      · exact lt_asymm (first z inside) less
      · exact (first z inside).ne same.symm
    unfold insertEntry
    split
    · rename_i less
      constructor
      · intro inside
        rcases mem_cons.mp inside with rfl | inside
        · exact .inl rfl
        · refine .inr ⟨inside, ?_⟩
          rcases mem_cons.mp inside with rfl | inside
          · exact less.ne'
          · exact above x inside (.inl less)
      · rintro (rfl | ⟨inside, -⟩)
        · exact mem_cons_self
        · exact mem_cons_of_mem _ inside
    · split
      · rename_i greater
        rw [mem_cons, ih later, mem_cons]
        constructor
        · rintro (rfl | rfl | ⟨inside, other⟩)
          · exact .inr ⟨.inl rfl, greater.ne⟩
          · exact .inl rfl
          · exact .inr ⟨.inr inside, other⟩
        · rintro (rfl | ⟨rfl | inside, other⟩)
          · exact .inr (.inl rfl)
          · exact .inl rfl
          · exact .inr (.inr ⟨inside, other⟩)
      · rename_i notLess notGreater
        obtain same : k = y.1 := le_antisymm (not_lt.mp notGreater) (not_lt.mp notLess)
        rw [mem_cons, mem_cons]
        constructor
        · rintro (rfl | inside)
          · exact .inl rfl
          · exact .inr ⟨.inr inside, above x inside (.inr same)⟩
        · rintro (rfl | ⟨rfl | inside, other⟩)
          · exact .inl rfl
          · exact absurd same.symm other
          · exact .inr inside

theorem ascending_insertEntry (k : κ) (v : ν) {entries : List (κ × ν)}
    (ascending : entries.Pairwise fun a b => a.1 < b.1) : (insertEntry k v entries).Pairwise fun a b => a.1 < b.1 := by
  induction entries with
  | nil => simp [insertEntry]
  | cons y rest ih =>
    obtain ⟨first, later⟩ := pairwise_cons.mp ascending
    unfold insertEntry
    split
    · rename_i less
      refine pairwise_cons.mpr ⟨fun z inside => ?_, ascending⟩
      rcases mem_cons.mp inside with rfl | inside
      · exact less
      · exact less.trans (first z inside)
    · split
      · rename_i greater
        refine pairwise_cons.mpr ⟨fun z inside => ?_, ih later⟩
        rcases (mem_insertEntry later).mp inside with rfl | ⟨inside, -⟩
        · exact greater
        · exact first z inside
      · rename_i notLess notGreater
        obtain same : k = y.1 := le_antisymm (not_lt.mp notGreater) (not_lt.mp notLess)
        exact pairwise_cons.mpr ⟨fun z inside => same ▸ first z inside, later⟩

theorem length_insertEntry_le (k : κ) (v : ν) (entries : List (κ × ν)) :
    (insertEntry k v entries).length ≤ entries.length + 1 := by
  induction entries with
  | nil => simp [insertEntry]
  | cons y rest ih =>
    unfold insertEntry
    split
    · simp
    · split
      · simpa using ih
      · simp

namespace OrderedMap

def empty : OrderedMap κ ν := ⟨[], .nil⟩

instance : EmptyCollection (OrderedMap κ ν) := ⟨empty⟩

instance : Inhabited (OrderedMap κ ν) := ⟨empty⟩

def get? (m : OrderedMap κ ν) (k : κ) : Option ν := (m.entries.find? (·.1 = k)).map Prod.snd

def insert (m : OrderedMap κ ν) (k : κ) (v : ν) : OrderedMap κ ν :=
  ⟨insertEntry k v m.entries, ascending_insertEntry k v m.ascending⟩

def filter (m : OrderedMap κ ν) (keep : κ → ν → Bool) : OrderedMap κ ν :=
  ⟨m.entries.filter fun x => keep x.1 x.2, m.ascending.filter _⟩

def erase (m : OrderedMap κ ν) (k : κ) : OrderedMap κ ν := m.filter fun k' _ => k' ≠ k

def mapValues {μ : Type*} (m : OrderedMap κ ν) (f : κ → ν → μ) : OrderedMap κ μ :=
  ⟨m.entries.map fun x => (x.1, f x.1 x.2), List.pairwise_map.mpr m.ascending⟩

def values (m : OrderedMap κ ν) : List ν := m.entries.map Prod.snd

variable {m : OrderedMap κ ν} {k : κ} {v : ν} {x : κ × ν}

@[simp] theorem entries_empty : (∅ : OrderedMap κ ν).entries = [] := rfl

theorem mem_insert : x ∈ (m.insert k v).entries ↔ x = (k, v) ∨ (x ∈ m.entries ∧ x.1 ≠ k) :=
  mem_insertEntry m.ascending

theorem mem_filter {keep : κ → ν → Bool} : x ∈ (m.filter keep).entries ↔ x ∈ m.entries ∧ keep x.1 x.2 = true :=
  List.mem_filter

theorem mem_erase : x ∈ (m.erase k).entries ↔ x ∈ m.entries ∧ x.1 ≠ k := by
  simp [erase, mem_filter]

theorem mem_values : v ∈ m.values ↔ ∃ k, (k, v) ∈ m.entries := by
  simp [values]

theorem eq_of_mem {v w : ν} (first : (k, v) ∈ m.entries) (second : (k, w) ∈ m.entries) : v = w := by
  obtain ⟨entries, ascending⟩ := m
  simp only at first second
  induction entries with
  | nil => cases first
  | cons y rest ih =>
    obtain ⟨above, later⟩ := pairwise_cons.mp ascending
    rcases mem_cons.mp first with rfl | inFirst
    · rcases mem_cons.mp second with same | inSecond
      · exact (congrArg Prod.snd same).symm
      · exact (lt_irrefl k (above (k, w) inSecond)).elim
    · rcases mem_cons.mp second with rfl | inSecond
      · exact (lt_irrefl k (above (k, v) inFirst)).elim
      · exact ih later inFirst inSecond

theorem nodup_keys (m : OrderedMap κ ν) : (m.entries.map Prod.fst).Nodup :=
  pairwise_map.mpr (m.ascending.imp fun less => less.ne)

theorem nodup_entries (m : OrderedMap κ ν) : m.entries.Nodup :=
  m.ascending.imp fun less same => less.ne (congrArg Prod.fst same)

theorem ext_of_mem {m n : OrderedMap κ ν} (same : ∀ x, x ∈ m.entries ↔ x ∈ n.entries) : m = n := by
  have perm : m.entries.Perm n.entries :=
    (perm_ext_iff_of_nodup m.nodup_entries n.nodup_entries).mpr same
  have equal := perm.eq_of_pairwise (fun a b _ _ less greater => (lt_asymm less greater).elim)
    m.ascending n.ascending
  cases m
  cases n
  subst equal
  rfl

theorem get?_eq_some : m.get? k = some v ↔ (k, v) ∈ m.entries := by
  constructor
  · intro found
    obtain ⟨x, there, rfl⟩ := Option.map_eq_some_iff.mp found
    obtain rfl : x.1 = k := by simpa using find?_some there
    exact mem_of_find?_eq_some there
  · intro inside
    cases found : m.get? k with
    | none =>
      have absent := find?_eq_none.mp (Option.map_eq_none_iff.mp found) _ inside
      simp at absent
    | some w =>
      obtain ⟨x, there, rfl⟩ := Option.map_eq_some_iff.mp found
      obtain rfl : x.1 = k := by simpa using find?_some there
      exact congrArg some (eq_of_mem (mem_of_find?_eq_some there) inside)

theorem get?_eq_none : m.get? k = none ↔ ∀ v, (k, v) ∉ m.entries := by
  rw [Option.eq_none_iff_forall_not_mem]
  exact forall_congr' fun v => not_congr get?_eq_some

theorem get?_insert (m : OrderedMap κ ν) (k k' : κ) (v : ν) :
    (m.insert k v).get? k' = if k' = k then some v else m.get? k' := by
  split
  · rename_i same
    exact get?_eq_some.mpr (mem_insert.mpr (.inl (by rw [same])))
  · rename_i other
    ext w
    rw [get?_eq_some, get?_eq_some, mem_insert]
    simp [other]

theorem get?_filter {keep : κ → ν → Bool} (kept : ∀ v, keep k v = true) : (m.filter keep).get? k = m.get? k := by
  ext v
  rw [get?_eq_some, get?_eq_some, mem_filter]
  simp [kept v]

theorem get?_erase (m : OrderedMap κ ν) (k k' : κ) : (m.erase k).get? k' = if k' = k then none else m.get? k' := by
  ext v
  rw [get?_eq_some, mem_erase]
  split
  · rename_i same
    simp [same]
  · rename_i other
    simp [other, get?_eq_some]

theorem mem_values_iff : v ∈ m.values ↔ ∃ k, m.get? k = some v := by
  rw [mem_values]
  exact exists_congr fun k => get?_eq_some.symm

theorem ext_of_get? {m n : OrderedMap κ ν} (same : ∀ k, m.get? k = n.get? k) : m = n :=
  ext_of_mem fun x => by rw [← get?_eq_some, ← get?_eq_some, same]

theorem get?_mapValues {μ : Type*} (m : OrderedMap κ ν) (f : κ → ν → μ) (k : κ) :
    (m.mapValues f).get? k = (m.get? k).map (f k) := by
  ext w
  rw [get?_eq_some, Option.map_eq_some_iff]
  simp only [get?_eq_some, mapValues, mem_map, Prod.mk.injEq, Prod.exists]
  constructor
  · rintro ⟨a, v, inside, rfl, rfl⟩
    exact ⟨v, inside, rfl⟩
  · rintro ⟨v, inside, rfl⟩
    exact ⟨k, v, inside, rfl, rfl⟩

theorem sum_insert {β : Type*} [AddCommGroup β] (weigh : κ → ν → β) (m : OrderedMap κ ν) (k : κ) (v : ν) :
    ((m.insert k v).entries.map fun x => weigh x.1 x.2).sum =
      (m.entries.map fun x => weigh x.1 x.2).sum - (m.get? k).elim 0 (weigh k) + weigh k v := by
  obtain ⟨entries, ascending⟩ := m
  simp only [insert, get?]
  induction entries with
  | nil => simp [insertEntry]
  | cons x rest ih =>
    obtain ⟨above, later⟩ := pairwise_cons.mp ascending
    unfold insertEntry
    split
    · rename_i less
      have absent : (x :: rest).find? (·.1 = k) = none := by
        refine find?_eq_none.mpr fun y inside same => ?_
        have key := of_decide_eq_true same
        rcases mem_cons.mp inside with rfl | more
        · exact less.ne' key
        · exact (less.trans (above y more)).ne' key
      rw [absent]
      simp [add_comm]
    · split
      · rename_i greater
        simp only [map_cons, sum_cons, ih later, greater.ne, decide_false, Bool.false_eq_true,
          not_false_eq_true, find?_cons_of_neg]
        abel
      · rename_i notLess notGreater
        obtain rfl : x.1 = k := le_antisymm (not_lt.mp notLess) (not_lt.mp notGreater)
        simp only [map_cons, sum_cons, decide_true, find?_cons_of_pos, Option.map_some,
          Option.elim_some]
        abel

theorem sum_erase {β : Type*} [AddCommGroup β] (weigh : κ → ν → β) (m : OrderedMap κ ν) (k : κ) :
    ((m.erase k).entries.map fun x => weigh x.1 x.2).sum =
      (m.entries.map fun x => weigh x.1 x.2).sum - (m.get? k).elim 0 (weigh k) := by
  obtain ⟨entries, ascending⟩ := m
  simp only [erase, filter, get?]
  induction entries with
  | nil => simp
  | cons x rest ih =>
    obtain ⟨above, later⟩ := pairwise_cons.mp ascending
    by_cases same : x.1 = k
    · have others : rest.filter (fun y => decide (y.1 ≠ k)) = rest :=
        filter_eq_self.mpr fun y inside => by
          simpa [same] using (above y inside).ne'
      rw [filter_cons_of_neg (by simp [same]), others]
      simp [same]
    · rw [filter_cons_of_pos (by simp [same]), map_cons, sum_cons, ih later,
        map_cons, sum_cons, find?_cons_of_neg (by simp [same])]
      abel

theorem length_insert (m : OrderedMap κ ν) (k : κ) (v : ν) : (m.insert k v).entries.length =
      if m.get? k = none then m.entries.length + 1 else m.entries.length := by
  have absent : m.get? k = none ↔ ∀ x ∈ m.entries, x.1 ≠ k := by
    rw [get?_eq_none]
    exact ⟨fun none x inside same => none x.2 (same ▸ inside), fun none w inside => none _ inside rfl⟩
  simp only [absent]
  obtain ⟨entries, ascending⟩ := m
  show (insertEntry k v entries).length = _
  clear absent
  induction entries with
  | nil => simp [insertEntry]
  | cons y rest ih =>
    obtain ⟨first, later⟩ := pairwise_cons.mp ascending
    unfold insertEntry
    split
    · rename_i less
      have none : ∀ x ∈ y :: rest, x.1 ≠ k := by
        intro x inside
        rcases mem_cons.mp inside with rfl | inside
        · exact less.ne'
        · exact (less.trans (first x inside)).ne'
      rw [if_pos none]
      rfl
    · split
      · rename_i greater
        rw [length_cons, ih later]
        simp only [forall_mem_cons, greater.ne, ne_eq, not_false_eq_true, true_and,
          length_cons]
        split <;> rfl
      · rename_i notLess notGreater
        obtain same : k = y.1 := le_antisymm (not_lt.mp notGreater) (not_lt.mp notLess)
        rw [if_neg fun none => none y mem_cons_self same.symm]
        rfl

section
variable {α : Type*} {key : α → κ} {value : α → ν} {xs : List α} {m : OrderedMap κ ν} {x : κ × ν}

theorem mem_foldl_insert (inside : x ∈ (xs.foldl (fun m a => m.insert (key a) (value a)) m).entries) :
    x ∈ m.entries ∨ ∃ a ∈ xs, x = (key a, value a) := by
  induction xs generalizing m with
  | nil => exact .inl inside
  | cons a rest ih =>
    rcases ih inside with old | ⟨b, there, same⟩
    · rcases mem_insert.mp old with same | ⟨older, -⟩
      · exact .inr ⟨a, mem_cons_self, same⟩
      · exact .inl older
    · exact .inr ⟨b, mem_cons_of_mem _ there, same⟩

theorem mem_foldl_insert_old (old : x ∈ m.entries) (other : ∀ a ∈ xs, key a ≠ x.1) :
    x ∈ (xs.foldl (fun m a => m.insert (key a) (value a)) m).entries := by
  induction xs generalizing m with
  | nil => exact old
  | cons a rest ih =>
    refine ih (mem_insert.mpr (.inr ⟨old, ?_⟩)) fun b there => other b (mem_cons_of_mem _ there)
    exact (other a mem_cons_self).symm

theorem mem_foldl_insert_new {a : α} (inside : a ∈ xs) (alone : ∀ b ∈ xs, key b = key a → value b = value a) :
    (key a, value a) ∈ (xs.foldl (fun m a => m.insert (key a) (value a)) m).entries := by
  induction xs generalizing m a with
  | nil => cases inside
  | cons b rest ih =>
    rw [foldl_cons]
    by_cases again : ∃ c ∈ rest, key c = key a
    · obtain ⟨c, there, same⟩ := again
      have equal := alone c (mem_cons_of_mem _ there) same
      rw [← same, ← equal]
      refine ih there fun d more shared => ?_
      rw [alone d (mem_cons_of_mem _ more) (shared.trans same), equal]
    · rcases mem_cons.mp inside with rfl | there
      · exact mem_foldl_insert_old (mem_insert.mpr (.inl rfl)) fun c more same =>
          again ⟨c, more, same⟩
      · exact (again ⟨a, there, rfl⟩).elim

end

/-- A map from its entries, in any order. A later value of a key replaces an earlier one. -/
def ofList (xs : List (κ × ν)) : OrderedMap κ ν := xs.foldl (fun m x => m.insert x.1 x.2) ∅

theorem ofList_of_perm {xs : List (κ × ν)} (perm : xs.Perm m.entries) : ofList xs = m := by
  refine ext_of_mem fun x => ?_
  constructor
  · intro inside
    rcases mem_foldl_insert inside with old | ⟨e, there, rfl⟩
    · simp at old
    · exact perm.mem_iff.mp there
  · intro inside
    refine @mem_foldl_insert_new _ _ _ _ Prod.fst Prod.snd _ _ _ (perm.mem_iff.mpr inside)
      fun e more same => ?_
    have entry : (x.1, e.2) ∈ m.entries := by
      rw [← same]
      exact perm.mem_iff.mp more
    exact eq_of_mem entry inside

end OrderedMap
end TallyOwl.Lib
