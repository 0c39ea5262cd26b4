import TallyOwl.Head.Expr
import TallyOwl.Lib.DepthFirst

/-! A trace in the order a person reads it (`query.rs`). Span ids and parent ids are texts that producers send, so
the links between rows are what they happen to be. -/
namespace TallyOwl.Query
open Lib TallyOwl.Expr List OrderedMap

section
variable (floatText : UInt64 → String) (rows : List EventRow)

def spanId (row : EventRow) : Option String := (row.property "span_id").map (·.toDisplay floatText)

def parentId (row : EventRow) : Option String := (row.property "parent_span_id").map (·.toDisplay floatText)

def present : List String := rows.filterMap (spanId floatText)

def parentOf (row : EventRow) : Option String := (parentId floatText row).filter (· ∈ present floatText rows)

/-- Rows in the order of their start. Rows of one moment stay as they are. -/
def byStart (rows : List EventRow) : List EventRow := rows.mergeSort fun a b => a.occurredAt ≤ b.occurredAt

def place (sorted : OrderedMap String (List EventRow) × List EventRow) (row : EventRow) :
    OrderedMap String (List EventRow) × List EventRow :=
  match parentOf floatText rows row with
  | some parent => (sorted.1.insert parent ((sorted.1.get? parent).getD [] ++ [row]), sorted.2)
  | none => (sorted.1, sorted.2 ++ [row])

def placed : OrderedMap String (List EventRow) × List EventRow := rows.foldl (place floatText rows) (∅, [])

def children : OrderedMap String (List EventRow) := (placed floatText rows).1.mapValues fun _ list => byStart list

def roots : List EventRow := byStart (placed floatText rows).2

def childrenOf (row : EventRow) : List EventRow :=
  match spanId floatText row with
  | some id => ((children floatText rows).get? id).getD []
  | none => []

/-- The rows of a trace at their depths. A walk from the roots comes first, and then a sweep for what it did
not reach. -/
def waterfall (fuel : Nat) : Option (List (Nat × EventRow)) :=
  (Walk.walk EventRow.eventId (childrenOf floatText rows) fuel (.start (roots floatText rows))).map fun walked =>
    (Walk.sweep EventRow.eventId rows walked).out

/-- A row whose parents lead to a root: to a row that names no parent, or one that is not in the trace. -/
inductive Rooted : EventRow → Prop where
  | root {row : EventRow} (inside : row ∈ rows) (orphan : parentOf floatText rows row = none) : Rooted row
  | child {row parent : EventRow} {id : String} (inside : row ∈ rows) (above : Rooted parent)
      (link : spanId floatText parent = some id) (named : parentId floatText row = some id) : Rooted row

end

section
variable {floatText : UInt64 → String} {rows : List EventRow} {row child : EventRow}

theorem perm_byStart (rows : List EventRow) : (byStart rows).Perm rows := mergeSort_perm _ _

theorem foldl_place (done : List EventRow) : (∀ id, ((done.foldl (place floatText rows) (∅, [])).1.get? id).getD [] =
      done.filter fun row => parentOf floatText rows row = some id) ∧
      (done.foldl (place floatText rows) (∅, [])).2 = done.filter fun row => parentOf floatText rows row = none := by
  induction done using List.reverseRecOn with
  | nil => exact ⟨fun id => rfl, rfl⟩
  | append_singleton done row ih =>
    obtain ⟨under, free⟩ := ih
    rw [foldl_append, foldl_cons, foldl_nil]
    cases named : parentOf floatText rows row with
    | none => simp [place, named, under, free]
    | some parent =>
      refine ⟨fun id => ?_, by simp [place, named, free]⟩
      by_cases same : id = parent
      · subst same
        simp [place, named, under, get?_insert]
      · have other : parent ≠ id := fun eq => same eq.symm
        simp [place, named, under, get?_insert, same, other]

theorem mem_roots : row ∈ roots floatText rows ↔ row ∈ rows ∧ parentOf floatText rows row = none := by
  rw [roots, (perm_byStart _).mem_iff, placed, (foldl_place rows).2, List.mem_filter, decide_eq_true_iff]

theorem mem_childrenOf : child ∈ childrenOf floatText rows row ↔
    child ∈ rows ∧ ∃ id, spanId floatText row = some id ∧ parentOf floatText rows child = some id := by
  unfold childrenOf
  split
  · rename_i id named
    have list : ((children floatText rows).get? id).getD [] =
        byStart (((placed floatText rows).1.get? id).getD []) := by
      rw [children, get?_mapValues]
      cases (placed floatText rows).1.get? id <;> simp [byStart]
    rw [list, (perm_byStart _).mem_iff, placed, (foldl_place rows).1 id, List.mem_filter, decide_eq_true_iff, named]
    simp
  · rename_i unnamed
    simp [unnamed]

theorem parentOf_eq_some {id : String} : parentOf floatText rows row = some id ↔
    parentId floatText row = some id ∧ id ∈ present floatText rows := by
  rw [parentOf, Option.filter_eq_some_iff, decide_eq_true_iff]

theorem Rooted.reached (rooted : Rooted floatText rows row) :
    row ∈ rows ∧ Walk.Reached (childrenOf floatText rows) (roots floatText rows) row := by
  induction rooted with
  | root inside orphan => exact ⟨inside, .root (mem_roots.mpr ⟨inside, orphan⟩)⟩
  | child inside above link named ih =>
    obtain ⟨known, reached⟩ := ih
    have there := mem_filterMap.mpr ⟨_, known, link⟩
    exact ⟨inside, .child reached (mem_childrenOf.mpr ⟨inside, _, link, parentOf_eq_some.mpr ⟨named, there⟩⟩)⟩

end

/-- A trace is shown whole, each row once, and a row whose parents lead to a root stands behind a row with its
parent's span id, one deeper. -/
theorem waterfall_shows (floatText : UInt64 → String) (rows : List EventRow)
    (distinct : (rows.map EventRow.eventId).Nodup) : ∃ fuel out,
      (∀ more, fuel ≤ more → waterfall floatText rows more = some out) ∧ (out.map Prod.snd).Perm rows ∧
      ∀ row id, Rooted floatText rows row → parentOf floatText rows row = some id →
        ∃ before depth parent later, out = before ++ (depth + 1, row) :: later ∧ (depth, parent) ∈ before ∧
          spanId floatText parent = some id := by
  obtain ⟨fuel, last, walked, shown, order⟩ := @Walk.walk_spec _ _ EventRow.eventId (childrenOf floatText rows) rows
    (roots floatText rows) _ (fun row root => (mem_roots.mp root).1)
    (fun row inside child handed => (mem_childrenOf.mp handed).1) distinct
  refine ⟨fuel, _, fun more longer => by rw [waterfall, walked more longer, Option.map_some], shown,
    fun row id rooted named => ?_⟩
  obtain ⟨depth, before, later, split, ⟨-, root⟩ | ⟨⟨above, parent⟩, there, handed, deeper⟩⟩ := order row rooted.reached.2
  · cases named.symm.trans (mem_roots.mp root).2
  · obtain ⟨-, id', link, named'⟩ := mem_childrenOf.mp handed
    obtain rfl := Option.some.inj (named.symm.trans named')
    obtain rfl : depth = above + 1 := deeper
    exact ⟨before, above, parent, later, split, there, link⟩

def span (eventId : Id) (own parent : String) : EventRow :=
  { EventRow.new eventId "span" "call" 5 with
    properties := [("parent_span_id", .text parent, "client"), ("span_id", .text own, "client")] }

/-- A child before its parent, whose own parent is elsewhere, and two spans that name each other. -/
def tangled : List EventRow := [span 1 "b" "a", span 2 "a" "elsewhere", span 3 "c" "d", span 4 "d" "c"]

theorem waterfall_shows_tangled : ∃ fuel out, waterfall (fun _ => "") tangled fuel = some out ∧
    (out.map Prod.snd).Perm tangled ∧ ∃ before depth parent later,
      out = before ++ (depth + 1, span 1 "b" "a") :: later ∧ (depth, parent) ∈ before ∧
        spanId (fun _ => "") parent = some "a" := by
  obtain ⟨fuel, out, walked, shown, order⟩ := waterfall_shows (fun _ => "") tangled (by decide)
  have above : Rooted (fun _ => "") tangled (span 2 "a" "elsewhere") := .root (by simp [tangled]) (by decide)
  have below : Rooted (fun _ => "") tangled (span 1 "b" "a") :=
    @Rooted.child _ _ _ _ "a" (by simp [tangled]) above (by decide) (by decide)
  exact ⟨fuel, out, walked fuel le_rfl, shown, order _ "a" below (by decide)⟩

end TallyOwl.Query
