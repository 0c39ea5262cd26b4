import Mathlib.Algebra.Order.BigOperators.Group.List
import Mathlib.Algebra.Order.Ring.Nat
import Mathlib.Data.List.Dedup
import Mathlib.Data.List.Perm.Subperm

/-! A walk over nodes that are handed on by a stack, each emitted once for its key. Behind the walk stand the
nodes that nothing handed on. -/
open List

namespace TallyOwl.Lib

structure Walk (κ α : Type*) where
  stack : List (Nat × α)
  emitted : List κ
  out : List (Nat × α)

namespace Walk
variable {κ α : Type*}

def start (roots : List α) : Walk κ α := ⟨roots.map fun a => (0, a), [], []⟩

section
variable (key : α → κ) (children : α → List α)

def emit (w : Walk κ α) (x : Nat × α) : Walk κ α := { w with emitted := key x.2 :: w.emitted, out := w.out ++ [x] }

inductive Reached (roots : List α) : α → Prop where
  | root {a : α} (inside : a ∈ roots) : Reached roots a
  | child {a b : α} (parent : Reached roots a) (inside : b ∈ children a) : Reached roots b

/-- A node at its depth, as a root or handed on by one that stands before. -/
def Handed (roots : List α) (before : List (Nat × α)) (x : Nat × α) : Prop :=
  (x.1 = 0 ∧ x.2 ∈ roots) ∨ ∃ p ∈ before, x.2 ∈ children p.2 ∧ x.1 = p.1 + 1

structure Sound (nodes roots : List α) (w : Walk κ α) : Prop where
  inside : (∀ x ∈ w.stack, x.2 ∈ nodes) ∧ ∀ x ∈ w.out, x.2 ∈ nodes
  emitted : w.emitted = (w.out.map fun x => key x.2).reverse
  once : w.emitted.Nodup
  waiting : ∀ x ∈ w.stack, Handed children roots w.out x
  placed : ∀ before x later, w.out = before ++ x :: later → Handed children roots before x
  closed : ∀ a, (a ∈ roots ∨ ∃ p ∈ w.out, a ∈ children p.2) → (∃ x ∈ w.stack, x.2 = a) ∨ key a ∈ w.emitted

/-- What is left to do: a node brings at most `most` others in the place of itself. -/
def left (nodes : List α) (most : Nat) (w : Walk κ α) : Nat :=
  (nodes.length - w.emitted.length) * (most + 1) + w.stack.length

variable [DecidableEq κ]

/-- Take the top of the stack. What it hands on is walked before what lies below. -/
def step (w : Walk κ α) : Option (Walk κ α) :=
  match w.stack with
  | [] => none
  | x :: stack =>
      if key x.2 ∈ w.emitted then some { w with stack := stack }
      else some { emit key w x with stack := (children x.2).map (fun a => (x.1 + 1, a)) ++ stack }

def walk : (fuel : Nat) → Walk κ α → Option (Walk κ α)
  | 0, _ => none
  | fuel + 1, w =>
      match step key children w with
      | none => some w
      | some next => walk fuel next

def sweep (nodes : List α) (w : Walk κ α) : Walk κ α :=
  nodes.foldl (fun w a => if key a ∈ w.emitted then w else emit key w (0, a)) w

end

variable {key : α → κ} {children : α → List α} {nodes roots : List α} {w next : Walk κ α}

theorem Handed.mono {before after : List (Nat × α)} {x : Nat × α} (handed : Handed children roots before x)
    (more : before ⊆ after) : Handed children roots after x :=
  handed.imp_right fun ⟨p, there, facts⟩ => ⟨p, more there, facts⟩

theorem sound_start (rooted : roots ⊆ nodes) : Sound key children nodes roots (start roots) where
  inside := ⟨fun x waits => by
    obtain ⟨a, root, rfl⟩ := mem_map.mp waits
    exact rooted root, fun x out => (by cases out)⟩
  emitted := rfl
  once := .nil
  waiting x waits := by
    obtain ⟨a, root, rfl⟩ := mem_map.mp waits
    exact .inl ⟨rfl, root⟩
  placed before x later split := by cases (append_eq_nil_iff.mp split.symm).2
  closed a from' := by
    rcases from' with root | ⟨p, out, -⟩
    · exact .inl ⟨_, mem_map.mpr ⟨a, root, rfl⟩, rfl⟩
    · cases out

theorem Sound.length_le (sound : Sound key children nodes roots w) : w.emitted.length ≤ nodes.length := by
  have inside : w.emitted ⊆ nodes.map key := by
    intro k done
    rw [sound.emitted, mem_reverse] at done
    obtain ⟨x, out, rfl⟩ := mem_map.mp done
    exact mem_map.mpr ⟨_, sound.inside.2 x out, rfl⟩
  simpa using (subperm_of_subset sound.once inside).length_le

theorem Sound.reached (sound : Sound key children nodes roots w) (done : w.stack = [])
    (rooted : roots ⊆ nodes) (handing : ∀ a ∈ nodes, children a ⊆ nodes)
    (apart : ∀ a ∈ nodes, ∀ b ∈ nodes, key a = key b → a = b) {a : α} (reached : Reached children roots a) :
    a ∈ nodes ∧ ∃ x ∈ w.out, x.2 = a := by
  have out {a : α} (inside : a ∈ nodes) (handed : a ∈ roots ∨ ∃ p ∈ w.out, a ∈ children p.2) : ∃ x ∈ w.out, x.2 = a := by
    rcases sound.closed a handed with ⟨x, waits, -⟩ | emitted
    · rw [done] at waits
      cases waits
    · rw [sound.emitted, mem_reverse] at emitted
      obtain ⟨x, there, same⟩ := mem_map.mp emitted
      exact ⟨x, there, apart _ (sound.inside.2 x there) _ inside same⟩
  induction reached with
  | root inside => exact ⟨rooted inside, out (rooted inside) (.inl inside)⟩
  | child parent inside ih =>
    obtain ⟨known, x, there, rfl⟩ := ih
    exact ⟨handing _ known inside, out (handing _ known inside) (.inr ⟨x, there, inside⟩)⟩

variable [DecidableEq κ]

/-- A step takes a node that was emitted off the stack, or emits the top and puts what it hands on in its place. -/
theorem step_cases (moved : step key children w = some next) : ∃ x stack, w.stack = x :: stack ∧
    ((key x.2 ∈ w.emitted ∧ next = { w with stack := stack }) ∨
      (key x.2 ∉ w.emitted ∧
        next = { emit key w x with stack := (children x.2).map (fun a => (x.1 + 1, a)) ++ stack })) := by
  unfold step at moved
  split at moved
  · cases moved
  · rename_i x stack held
    refine ⟨x, stack, held, ?_⟩
    split at moved
    · rename_i old
      exact .inl ⟨old, (Option.some.inj moved).symm⟩
    · rename_i new
      exact .inr ⟨new, (Option.some.inj moved).symm⟩

theorem Sound.step (sound : Sound key children nodes roots w) (handing : ∀ a ∈ nodes, children a ⊆ nodes)
    (moved : step key children w = some next) : Sound key children nodes roots next := by
  obtain ⟨x, stack, held, ⟨old, rfl⟩ | ⟨new, rfl⟩⟩ := step_cases moved
  · refine ⟨⟨fun y waits => sound.inside.1 y ?_, sound.inside.2⟩, sound.emitted, sound.once,
      fun y waits => sound.waiting y ?_, sound.placed, fun a handed => ?_⟩
    · rw [held]
      exact mem_cons_of_mem _ waits
    · rw [held]
      exact mem_cons_of_mem _ waits
    · rcases sound.closed a handed with ⟨y, waits, rfl⟩ | done
      · rw [held, mem_cons] at waits
        rcases waits with rfl | below
        · exact .inr old
        · exact .inl ⟨y, below, rfl⟩
      · exact .inr done
  · have top : x ∈ w.stack := held ▸ mem_cons_self
    have below {y : Nat × α} (waits : y ∈ stack) : y ∈ w.stack := held ▸ mem_cons_of_mem _ waits
    have inside := sound.inside.1 x top
    have still {a : α} (handed : a ∈ roots ∨ ∃ p ∈ w.out, a ∈ children p.2) :
        (∃ y ∈ (children x.2).map (fun a => (x.1 + 1, a)) ++ stack, y.2 = a) ∨ key a ∈ key x.2 :: w.emitted := by
      rcases sound.closed a handed with ⟨y, waits, rfl⟩ | done
      · rw [held, mem_cons] at waits
        rcases waits with rfl | waits
        · exact .inr mem_cons_self
        · exact .inl ⟨y, mem_append_right _ waits, rfl⟩
      · exact .inr (mem_cons_of_mem _ done)
    constructor
    · constructor
      · intro y waits
        rcases mem_append.mp waits with handed | waits
        · obtain ⟨a, child, rfl⟩ := mem_map.mp handed
          exact handing _ inside child
        · exact sound.inside.1 y (below waits)
      · intro y out
        rcases mem_append.mp out with before | last
        · exact sound.inside.2 y before
        · exact (mem_singleton.mp last) ▸ inside
    · simp [emit, sound.emitted]
    · exact nodup_cons.mpr ⟨new, sound.once⟩
    · intro y waits
      rcases mem_append.mp waits with handed | waits
      · obtain ⟨a, child, rfl⟩ := mem_map.mp handed
        exact .inr ⟨x, mem_append_right _ (mem_singleton_self x), child, rfl⟩
      · exact (sound.waiting y (below waits)).mono (subset_append_left _ _)
    · intro before y later split
      -- the entry stands before the new one, or is the new one
      rcases eq_nil_or_concat' later with rfl | ⟨later, last, rfl⟩
      · obtain ⟨same, is⟩ := append_inj' split rfl
        obtain rfl := List.cons.inj is |>.1
        exact same ▸ sound.waiting _ top
      · have split' : w.out ++ [x] = (before ++ y :: later) ++ [last] := by
          rw [append_assoc, cons_append]
          exact split
        exact sound.placed before y later (append_inj' split' rfl).1
    · rintro a (root | ⟨p, out, child⟩)
      · exact still (.inl root)
      · rcases mem_append.mp out with before | last
        · exact still (.inr ⟨p, before, child⟩)
        · obtain rfl := mem_singleton.mp last
          exact .inl ⟨(p.1 + 1, a), mem_append_left _ (mem_map.mpr ⟨a, child, rfl⟩), rfl⟩

theorem left_step {most : Nat} (sound : Sound key children nodes roots w)
    (handing : ∀ a ∈ nodes, children a ⊆ nodes) (few : ∀ a ∈ nodes, (children a).length ≤ most)
    (moved : Walk.step key children w = some next) : left nodes most next < left nodes most w := by
  have after := (sound.step handing moved).length_le
  obtain ⟨x, stack, held, ⟨old, rfl⟩ | ⟨new, rfl⟩⟩ := step_cases moved
  · simp only [left, held, length_cons]
    omega
  · have brought := few _ (sound.inside.1 x (held ▸ mem_cons_self))
    simp only [emit, length_cons] at after
    have one : nodes.length - w.emitted.length = nodes.length - (w.emitted.length + 1) + 1 := by omega
    simp only [left, emit, held, length_cons, length_append, length_map, one, Nat.add_mul]
    omega

theorem walk_returns {most fuel : Nat} (sound : Sound key children nodes roots w)
    (handing : ∀ a ∈ nodes, children a ⊆ nodes) (few : ∀ a ∈ nodes, (children a).length ≤ most)
    (enough : left nodes most w < fuel) :
    ∃ last, walk key children fuel w = some last ∧ Sound key children nodes roots last ∧ last.stack = [] := by
  induction fuel generalizing w with
  | zero => cases enough
  | succ fuel ih =>
    cases moved : Walk.step key children w with
    | none =>
      refine ⟨w, by rw [walk, moved], sound, ?_⟩
      unfold Walk.step at moved
      split at moved
      · assumption
      · split at moved <;> cases moved
    | some next =>
      obtain ⟨last, walked, rest⟩ := ih (sound.step handing moved)
        (Nat.lt_of_lt_of_le (left_step sound handing few moved) (Nat.le_of_lt_succ enough))
      exact ⟨last, by rw [walk, moved]; exact walked, rest⟩

theorem walk_mono {fuel more : Nat} {last : Walk κ α} (walked : walk key children fuel w = some last)
    (longer : fuel ≤ more) : walk key children more w = some last := by
  induction fuel generalizing w more with
  | zero => cases walked
  | succ fuel ih =>
    obtain ⟨more, rfl⟩ := Nat.exists_eq_add_of_lt longer
    rw [walk] at walked ⊢
    cases moved : Walk.step key children w with
    | none => rwa [moved] at walked
    | some next =>
      rw [moved] at walked
      exact ih walked (Nat.le_add_right _ _)

theorem sweep_spec (emitted : w.emitted = (w.out.map fun x => key x.2).reverse) (once : w.emitted.Nodup)
    (rest : List α) : ∃ late, (sweep key rest w).out = w.out ++ late ∧ (∀ x ∈ late, x.2 ∈ rest) ∧
      ((sweep key rest w).out.map fun x => key x.2).Nodup ∧
        ∀ a, key a ∈ w.emitted ∨ a ∈ rest → ∃ x ∈ (sweep key rest w).out, key x.2 = key a := by
  induction rest generalizing w with
  | nil =>
    rw [emitted, nodup_reverse] at once
    refine ⟨[], (append_nil _).symm, fun x inside => (by cases inside), once, ?_⟩
    rintro a (old | inside)
    · rw [emitted, mem_reverse] at old
      exact mem_map.mp old
    · cases inside
  | cons a rest ih =>
    by_cases old : key a ∈ w.emitted
    · have swept : sweep key (a :: rest) w = sweep key rest w := by rw [sweep, foldl_cons, if_pos old, sweep]
      obtain ⟨late, out, from', once, all⟩ := ih emitted once
      rw [swept]
      refine ⟨late, out, fun x inside => mem_cons_of_mem _ (from' x inside), once, fun b where' => all b ?_⟩
      rcases where' with before | inside
      · exact .inl before
      · rcases mem_cons.mp inside with rfl | later
        · exact .inl old
        · exact .inr later
    · have swept : sweep key (a :: rest) w = sweep key rest (emit key w (0, a)) := by
        rw [sweep, foldl_cons, if_neg old, sweep]
      obtain ⟨late, out, from', once, all⟩ := @ih (emit key w (0, a)) (by simp [emit, emitted])
        (nodup_cons.mpr ⟨old, once⟩)
      rw [swept]
      refine ⟨(0, a) :: late, by rw [out]; simp [emit], ?_, once, fun b where' => all b ?_⟩
      · exact forall_mem_cons.mpr ⟨mem_cons_self, fun x inside => mem_cons_of_mem _ (from' x inside)⟩
      · rcases where' with before | inside
        · exact .inl (mem_cons_of_mem _ before)
        · rcases mem_cons.mp inside with rfl | later
          · exact .inl mem_cons_self
          · exact .inr later

/-- A walk from some roots ends, and with the sweep behind it shows every node once. What can be reached stands
behind what handed it on, one deeper. -/
theorem walk_spec (rooted : roots ⊆ nodes) (handing : ∀ a ∈ nodes, children a ⊆ nodes)
    (distinct : (nodes.map key).Nodup) : ∃ fuel last, (∀ more, fuel ≤ more →
      walk key children more (start roots) = some last) ∧ ((sweep key nodes last).out.map Prod.snd).Perm nodes ∧
        ∀ a, Reached children roots a → ∃ depth before later,
          (sweep key nodes last).out = before ++ (depth, a) :: later ∧ Handed children roots before (depth, a) := by
  have apart : ∀ a ∈ nodes, ∀ b ∈ nodes, key a = key b → a = b := inj_on_of_nodup_map distinct
  have few : ∀ a ∈ nodes, (children a).length ≤ ((nodes.map fun a => (children a).length).sum) := fun a inside =>
    le_sum_of_mem (mem_map.mpr ⟨a, inside, rfl⟩)
  have first : Sound key children nodes roots (start roots) := sound_start rooted
  obtain ⟨last, walked, sound, done⟩ := walk_returns first handing few (Nat.lt_succ_self _)
  obtain ⟨late, out, from', once, all⟩ := sweep_spec sound.emitted sound.once nodes
  refine ⟨_, last, fun more longer => walk_mono walked longer, ?_, fun a reached => ?_⟩
  · have inside : ∀ x ∈ (sweep key nodes last).out, x.2 ∈ nodes := by
      rw [out]
      exact forall_mem_append.mpr ⟨sound.inside.2, from'⟩
    refine (perm_ext_iff_of_nodup ?_ distinct.of_map).mpr fun a => ?_
    · exact List.Nodup.of_map key (by rw [map_map]; exact once)
    · constructor
      · intro shown
        obtain ⟨x, there, rfl⟩ := mem_map.mp shown
        exact inside x there
      · intro there
        obtain ⟨x, shown, same⟩ := all a (.inr there)
        exact mem_map.mpr ⟨x, shown, apart _ (inside x shown) _ there same⟩
  · obtain ⟨-, ⟨depth, b⟩, there, rfl⟩ := sound.reached done rooted handing apart reached
    obtain ⟨before, later, split⟩ := append_of_mem there
    exact ⟨depth, before, later ++ late, by rw [out, split, append_assoc, cons_append],
      sound.placed _ _ _ split⟩

end Walk
end TallyOwl.Lib
