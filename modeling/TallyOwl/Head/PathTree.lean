import TallyOwl.Head.Correlated
import TallyOwl.Head.Project

/-! Path trees (`analysis.rs`): each key gives one sequence of names from its first anchor, and a node of the tree counts
the sequences that come to it. -/
namespace TallyOwl.Analysis
open Lib OrderedMap Identify List
open Query (QueryError invalidArgument)

structure PathGuards extends Guards where
  maxPathDepth : Nat
  maxPathNodes : Nat

structure PathQuestion where
  anchor : EventRow → Bool
  forwards : Bool
  depth : Nat
  minFrequency : Nat
  collapseLoops : Bool
  basis : Basis
  resolution : Resolution

structure PathNode where
  name : String
  depth : Nat
  count : Nat
  children : List PathNode

structure PathResult where
  root : Option PathNode
  coverage : Coverage
  pruned : Bool

/-- What the building of a tree has counted and left out so far. -/
structure Building where
  nodes : Nat
  pruned : Bool

section
variable (floatText : UInt64 → String) (question : PathQuestion) (guards : PathGuards)

def nodeName (row : EventRow) : String :=
  ((propertyText floatText row "route").or (propertyText floatText row "target")).getD row.name

/-- The sequence of one key, from its first anchor, where it holds more than the anchor. -/
def sequenceOf (owned : List EventRow) : Option (List String) := do
  let anchorAt ← owned.findIdx? question.anchor
  let rows := if question.forwards then owned.drop anchorAt else (owned.take (anchorAt + 1)).reverse
  let names := rows.map (nodeName floatText)
  let names := if question.collapseLoops then names.destutter (· ≠ ·) else names
  let names := names.take (question.depth + 1)
  guard (1 < names.length)
  return names

def rowsByKey (keyOf : EventRow → Option String) : Nat → Correlated → List EventRow → Except QueryError Correlated
  | _, held, [] => .ok held
  | index, held, row :: rest => do
      guards.checkTime guards.lateAtRow index
      rowsByKey keyOf (index + 1) (held.take row (keyOf row)) rest

def sequencesFrom : Nat → List (List EventRow) → Except QueryError (List (List String))
  | _, [] => .ok []
  | index, owned :: rest => do
      guards.checkTime guards.lateAtKey index
      let later ← sequencesFrom (index + 1) rest
      return (sequenceOf floatText question (inTimeOrder owned)).toList ++ later

def Building.enter (building : Building) : Except QueryError Building :=
  if guards.maxPathNodes < building.nodes + 1 then
    .error (overBudget "nodes" (toString (building.nodes + 1)) guards.maxPathNodes)
  else .ok { building with nodes := building.nodes + 1 }

def grouped (depth : Nat) (sequences : List (List String)) : OrderedMap String (List (List String)) :=
  gathered (fun sequence => sequence[depth + 1]?) sequences ∅

/-- A branch below the minimum is dropped, and the result says a branch was dropped. -/
def childrenOf (build : String → List (List String) → Building → Except QueryError (PathNode × Building)) :
    List (String × List (List String)) → Building → Except QueryError (List PathNode × Building)
  | [], building => .ok ([], building)
  | (name, held) :: rest, building =>
      if held.length < question.minFrequency then childrenOf build rest { building with pruned := true }
      else do
        let (child, building) ← build name held building
        let (children, building) ← childrenOf build rest building
        return (child :: children, building)

def byCount (children : List PathNode) : List PathNode :=
  children.insertionSort fun a b => b.count < a.count ∨ b.count = a.count ∧ a.name ≤ b.name

def buildNode : Nat → String → Nat → List (List String) → Building → Except QueryError (PathNode × Building)
  | 0, name, depth, sequences, building => do
      let building ← building.enter guards
      return (⟨name, depth, sequences.length, []⟩, building)
  | levels + 1, name, depth, sequences, building => do
      let building ← building.enter guards
      let (children, building) ← childrenOf question (fun name held => buildNode levels name (depth + 1) held)
        (grouped depth sequences).entries building
      return (⟨name, depth, sequences.length, byCount children⟩, building)

def checkPath : Except QueryError Unit :=
  if question.depth = 0 then .error (invalidArgument "A path needs a depth of at least one step.")
  else if guards.maxPathDepth < question.depth then
    .error (overBudget "steps of depth" (toString question.depth) guards.maxPathDepth)
  else .ok ()

def path (rows : List EventRow) (incomplete : Bool) (identity : Identity) : Except QueryError PathResult := do
  checkPath question guards
  let correlated ← rowsByKey guards (fun row => identity.keyFor row question.basis question.resolution) 0 ⟨∅, 0⟩ rows
  let coverage := ⟨incomplete, correlated.byKey.entries.length, correlated.rowsWithoutIdentity⟩
  let sequences ← sequencesFrom floatText question guards 0 correlated.byKey.values
  match sequences with
  | [] => return ⟨none, coverage, false⟩
  | first :: _ =>
      let (root, building) ← buildNode question guards question.depth (first.headD "") 0 sequences ⟨0, false⟩
      return ⟨some root, coverage, building.pruned⟩

end

/-! The nodes below a node, each with the names that lead to it. -/

mutual

def PathNode.descendants : PathNode → List (List String × Nat)
  | ⟨_, _, _, children⟩ => allDescendants children

def allDescendants : List PathNode → List (List String × Nat)
  | [] => []
  | child :: rest => ([child.name], child.count) :: child.descendants.map (fun x => (child.name :: x.1, x.2)) ++ allDescendants rest

end

def PathNode.lineage (child : PathNode) : List (List String × Nat) :=
  ([child.name], child.count) :: child.descendants.map fun x => (child.name :: x.1, x.2)

theorem allDescendants_eq (children : List PathNode) : allDescendants children = children.flatMap PathNode.lineage := by
  induction children with
  | nil => rfl
  | cons child rest ih =>
    rw [allDescendants, ih, flatMap_cons]
    rfl

def coming (depth : Nat) (sequences : List (List String)) (names : List String) : Nat :=
  sequences.countP fun sequence => names.isPrefixOf (sequence.drop (depth + 1))

section
variable {question : PathQuestion} {guards : PathGuards} {depth : Nat} {sequences : List (List String)}
  {building after : Building} {node : PathNode}

/-- Each name list that comes often enough stands once, with how often it comes. -/
structure Counts (question : PathQuestion) (times : List String → Nat) (paths : List (List String × Nat)) : Prop where
  once : (paths.map Prod.fst).Nodup
  counts : ∀ names count, (names, count) ∈ paths ↔
    names ≠ [] ∧ count = times names ∧ 0 < count ∧ question.minFrequency ≤ count

def LeftOut (question : PathQuestion) (times : List String → Nat) : Prop :=
  ∃ names, names ≠ [] ∧ 0 < times names ∧ times names < question.minFrequency

theorem coming_nil : coming depth sequences [] = sequences.length := by
  simp [coming]

theorem coming_le (names : List String) : coming depth sequences names ≤ sequences.length := countP_le_length

theorem coming_cons (name : String) (names : List String) : coming depth sequences (name :: names) =
    coming (depth + 1) (sequences.filter fun sequence => sequence[depth + 1]? = some name) names := by
  unfold coming
  rw [countP_filter]
  refine countP_congr fun sequence _ => ?_
  have first : sequence[depth + 1]? = (sequence.drop (depth + 1)).head? := head?_drop.symm
  have behind : sequence.drop (depth + 1 + 1) = (sequence.drop (depth + 1)).tail := tail_drop.symm
  rw [first, behind]
  cases sequence.drop (depth + 1) with
  | nil => simp
  | cons other rest =>
    rw [head?_cons, tail_cons, isPrefixOf_cons_cons, Bool.and_eq_true, Bool.and_eq_true, beq_iff_eq,
      decide_eq_true_eq, Option.some.injEq]
    exact and_comm.trans (and_congr_right fun _ => eq_comm)

/-- What building a child from the sequences of its group comes to. -/
structure Built (question : PathQuestion) (depth : Nat) (name : String) (held : List (List String))
    (building : Building) (made : PathNode × Building) : Prop where
  name : made.1.name = name
  count : made.1.count = held.length
  below : Counts question (coming depth held) made.1.descendants
  pruned : made.2.pruned = true ↔ building.pruned = true ∨ LeftOut question (coming depth held)

theorem Built.lineage {name : String} {held : List (List String)} {made : PathNode × Building}
    (built : Built question depth name held building made) (full : held ≠ [])
    (kept : question.minFrequency ≤ held.length) : (made.1.lineage.map Prod.fst).Nodup ∧
      (∀ names count, (names, count) ∈ made.1.lineage ↔ ∃ rest, names = name :: rest ∧ count = coming depth held rest ∧
        0 < count ∧ question.minFrequency ≤ count) := by
  have some : 0 < held.length := length_pos_iff.mpr full
  unfold PathNode.lineage
  rw [built.name, built.count]
  constructor
  · rw [map_cons, nodup_cons, map_map]
    refine ⟨fun inside => ?_, ?_⟩
    · obtain ⟨⟨names, count⟩, inside, same⟩ := mem_map.mp inside
      exact ((built.below.counts names count).mp inside).1 (List.cons.inj same).2
    · have keys : made.1.descendants.map (Prod.fst ∘ fun x => (name :: x.1, x.2)) =
          (made.1.descendants.map Prod.fst).map (name :: ·) := by
        rw [map_map]
        rfl
      rw [keys]
      exact built.below.once.map fun _ _ same => (List.cons.inj same).2
  · intro names count
    rw [mem_cons, mem_map]
    constructor
    · rintro (same | ⟨⟨rest, count⟩, inside, same⟩)
      · cases same
        exact ⟨[], rfl, coming_nil.symm, some, kept⟩
      · cases same
        obtain ⟨-, often⟩ := (built.below.counts rest count).mp inside
        exact ⟨rest, rfl, often⟩
    · rintro ⟨rest, rfl, often⟩
      cases rest with
      | nil => exact .inl (by rw [often.1, coming_nil])
      | cons next rest => exact .inr ⟨_, (built.below.counts _ _).mpr ⟨cons_ne_nil _ _, often⟩, rfl⟩

/-- The groups whose sequences a list of names comes from, and how many of them. -/
def From (depth : Nat) (groups : List (String × List (List String))) (names : List String) (count : Nat) : Prop :=
  ∃ group ∈ groups, ∃ rest, names = group.1 :: rest ∧ count = coming depth group.2 rest ∧ 0 < count

theorem childrenOf_ok {build : String → List (List String) → Building → Except QueryError (PathNode × Building)}
    {groups : List (String × List (List String))} {children : List PathNode}
    (builds : ∀ name held, (name, held) ∈ groups → ∀ building made, build name held building = .ok made →
      Built question depth name held building made)
    (apart : (groups.map Prod.fst).Nodup) (full : ∀ group ∈ groups, group.2 ≠ [])
    (done : childrenOf question build groups building = .ok (children, after)) :
    ((children.flatMap PathNode.lineage).map Prod.fst).Nodup ∧
      (∀ names count, (names, count) ∈ children.flatMap PathNode.lineage ↔
        From depth groups names count ∧ question.minFrequency ≤ count) ∧ (after.pruned = true ↔ building.pruned = true ∨
        ∃ names count, From depth groups names count ∧ count < question.minFrequency) := by
  induction groups generalizing building children with
  | nil =>
    cases done
    simp [From]
  | cons group groups ih =>
    obtain ⟨name, held⟩ := group
    obtain ⟨new, apart⟩ := nodup_cons.mp apart
    obtain ⟨some, full⟩ := forall_mem_cons.mp full
    have mine (names : List String) (count : Nat) : From depth ((name, held) :: groups) names count ↔
        (∃ rest, names = name :: rest ∧ count = coming depth held rest ∧ 0 < count) ∨ From depth groups names count := by
      simp [From]
    have whole : From depth ((name, held) :: groups) [name] held.length :=
      (mine _ _).mpr (.inl ⟨[], rfl, coming_nil.symm, length_pos_iff.mpr some⟩)
    unfold childrenOf at done
    split_ifs at done with few
    · obtain ⟨once, counts, pruned⟩ := ih (fun name held inside => builds name held (.tail _ inside)) apart full done
      refine ⟨once, fun names count => ?_, ?_⟩
      · rw [counts, mine]
        refine and_congr_left fun often => (or_iff_right ?_).symm
        rintro ⟨rest, -, rfl, -⟩
        exact absurd (often.trans (coming_le rest)) (not_le.mpr few)
      · exact iff_of_true (pruned.mpr (.inl rfl)) (.inr ⟨_, _, whole, few⟩)
    · obtain ⟨⟨child, between⟩, here, done⟩ := Project.bind_eq_ok.mp done
      obtain ⟨⟨others, last⟩, done, same⟩ := Project.bind_eq_ok.mp done
      cases same
      have built := builds name held mem_cons_self building _ here
      obtain ⟨own, counted⟩ := built.lineage some (not_lt.mp few)
      obtain ⟨once, counts, pruned⟩ := ih (fun name held inside => builds name held (.tail _ inside)) apart full done
      refine ⟨?_, fun names count => ?_, ?_⟩
      · rw [flatMap_cons, map_append]
        refine own.append once fun names first second => ?_
        obtain ⟨⟨_, count⟩, mine, rfl⟩ := mem_map.mp first
        obtain ⟨⟨_, other⟩, theirs, same⟩ := mem_map.mp second
        obtain ⟨rest, whose, -⟩ := (counted _ _).mp mine
        obtain ⟨group, inside, later, split, -⟩ := ((counts _ _).mp theirs).1
        exact new (mem_map.mpr ⟨group, inside, (List.cons.inj ((split.symm.trans same).trans whose)).1⟩)
      · rw [flatMap_cons, mem_append, counts, counted, mine, or_and_right]
        refine or_congr_left ?_
        simp only [← exists_and_right, and_assoc]
      · rw [pruned, built.pruned, or_assoc]
        refine or_congr_right ?_
        simp only [mine, or_and_right, exists_or]
        refine or_congr_left ⟨?_, ?_⟩
        · rintro ⟨rest, -, positive, rare⟩
          exact ⟨_, _, ⟨rest, rfl, rfl, positive⟩, rare⟩
        · rintro ⟨_, _, ⟨rest, -, rfl, positive⟩, rare⟩
          refine ⟨rest, fun none => ?_, positive, rare⟩
          rw [none, coming_nil] at rare
          exact few rare

theorem mem_grouped {name : String} {held : List (List String)} : (name, held) ∈ (grouped depth sequences).entries ↔
    held = sequences.filter (fun sequence => sequence[depth + 1]? = some name) ∧ held ≠ [] := by
  rw [← get?_eq_some, grouped, get?_gathered]
  split_ifs with none
  · simp [none]
  · rw [Option.some.injEq, eq_comm, and_iff_left_of_imp fun same => same ▸ none]

theorem from_grouped (names : List String) (count : Nat) : From (depth + 1) (grouped depth sequences).entries names count ↔
    names ≠ [] ∧ count = coming depth sequences names ∧ 0 < count := by
  constructor
  · rintro ⟨⟨name, held⟩, inside, rest, rfl, rfl, positive⟩
    obtain ⟨same, -⟩ := mem_grouped.mp inside
    refine ⟨cons_ne_nil _ _, ?_, positive⟩
    rw [coming_cons, ← same]
  · rintro ⟨some, rfl, positive⟩
    obtain ⟨name, rest, rfl⟩ := exists_cons_of_ne_nil some
    rw [coming_cons] at positive ⊢
    refine ⟨(name, _), mem_grouped.mpr ⟨rfl, fun none => ?_⟩, rest, rfl, rfl, positive⟩
    rw [none] at positive
    exact absurd positive (lt_irrefl 0)

theorem enter_ok (entered : building.enter guards = .ok after) : after.pruned = building.pruned := by
  unfold Building.enter at entered
  split_ifs at entered
  cases entered
  rfl

theorem buildNode_ok {levels : Nat} {name : String} {made : PathNode × Building}
    (short : ∀ sequence ∈ sequences, sequence.length ≤ depth + 1 + levels)
    (done : buildNode question guards levels name depth sequences building = .ok made) :
    Built question depth name sequences building made := by
  induction levels generalizing name depth sequences building made with
  | zero =>
    obtain ⟨between, entered, done⟩ := Project.bind_eq_ok.mp done
    cases done
    have none (names : List String) (some : names ≠ []) : coming depth sequences names = 0 := by
      refine countP_eq_zero.mpr fun sequence inside => ?_
      rw [drop_of_length_le (short sequence inside)]
      simpa using some
    refine ⟨rfl, rfl, ⟨nodup_nil, fun names count => ?_⟩, ?_⟩
    · refine iff_of_false not_mem_nil ?_
      rintro ⟨some, rfl, positive, -⟩
      exact positive.ne' (none names some)
    · rw [enter_ok entered, or_iff_left]
      rintro ⟨names, some, positive, -⟩
      exact positive.ne' (none names some)
  | succ levels ih =>
    obtain ⟨between, entered, done⟩ := Project.bind_eq_ok.mp done
    obtain ⟨⟨children, last⟩, grown, done⟩ := Project.bind_eq_ok.mp done
    cases done
    have sorted : (byCount children).flatMap PathNode.lineage |>.Perm (children.flatMap PathNode.lineage) :=
      (perm_insertionSort _ _).flatMap_right _
    have group (name : String) (held : List (List String)) (inside : (name, held) ∈ (grouped depth sequences).entries) :
        held = sequences.filter (fun sequence => sequence[depth + 1]? = some name) ∧ held ≠ [] :=
      mem_grouped.mp inside
    obtain ⟨once, counts, pruned⟩ := childrenOf_ok (fun name held inside building made done => ih (fun sequence own => by
        rw [(group name held inside).1] at own
        have := short sequence (mem_of_mem_filter own)
        omega) done) (nodup_keys _) (fun g inside => (group g.1 g.2 inside).2) grown
    refine ⟨rfl, rfl, ⟨?_, fun names count => ?_⟩, ?_⟩
    · rw [PathNode.descendants, allDescendants_eq]
      exact (sorted.map _).nodup_iff.mpr once
    · rw [PathNode.descendants, allDescendants_eq, sorted.mem_iff, counts, from_grouped, and_assoc, and_assoc]
    · rw [pruned, enter_ok entered]
      simp only [from_grouped, LeftOut, and_assoc, exists_and_left, exists_eq_left]

end

section
variable {floatText : UInt64 → String} {question : PathQuestion} {guards : PathGuards} {rows : List EventRow}
  {incomplete : Bool} {identity : Identity} {result : PathResult}

def PathQuestion.keyOf (question : PathQuestion) (identity : Identity) (row : EventRow) : Option String :=
  identity.keyFor row question.basis question.resolution

/-- How many keys go on behind their anchor with these names, of those whose sequence is more than the anchor. -/
def reaching (floatText : UInt64 → String) (question : PathQuestion) (identity : Identity) (rows : List EventRow)
    (names : List String) : Nat :=
  ((keysOf (question.keyOf identity) rows).filter fun key =>
    ((sequenceOf floatText question (rowsOf (question.keyOf identity) rows key)).any fun sequence =>
      names.isPrefixOf sequence.tail) = true).card

theorem rowsByKey_ok {keyOf : EventRow → Option String} {index : Nat} {held out : Correlated}
    (done : rowsByKey guards keyOf index held rows = .ok out) : out = correlated keyOf rows held := by
  induction rows generalizing index held with
  | nil => exact (Except.ok.inj done).symm
  | cons row rest ih =>
    obtain ⟨_, -, done⟩ := Project.bind_eq_ok.mp done
    exact ih done

theorem sequencesFrom_ok {owned : List (List EventRow)} {index : Nat} {out : List (List String)}
    (done : sequencesFrom floatText question guards index owned = .ok out) :
    out = (owned.map inTimeOrder).filterMap (sequenceOf floatText question) := by
  induction owned generalizing index out with
  | nil => exact (Except.ok.inj done).symm
  | cons one rest ih =>
    obtain ⟨_, -, done⟩ := Project.bind_eq_ok.mp done
    obtain ⟨later, after, done⟩ := Project.bind_eq_ok.mp done
    cases done
    rw [ih after, map_cons, filterMap_cons]
    cases sequenceOf floatText question (inTimeOrder one) <;> rfl

theorem length_sequenceOf {owned : List EventRow} {sequence : List String}
    (found : sequenceOf floatText question owned = some sequence) : sequence.length ≤ 0 + 1 + question.depth := by
  simp only [sequenceOf, Option.bind_eq_bind, Option.bind_eq_some_iff, Option.pure_def, Option.some.injEq] at found
  obtain ⟨_, -, _, -, rfl⟩ := found
  rw [length_take]
  omega

theorem coming_followed (names : List String) : coming 0
    ((ordered (correlated (question.keyOf identity) rows ⟨∅, 0⟩)).values.filterMap (sequenceOf floatText question)) names =
      reaching floatText question identity rows names := by
  unfold coming reaching
  rw [countP_filterMap]
  refine Eq.trans (countP_congr fun owned _ => ?_) (countP_ordered rows fun owned =>
    (sequenceOf floatText question owned).any fun sequence => names.isPrefixOf sequence.tail)
  cases sequenceOf floatText question owned <;> simp

/-- The root counts the keys that are followed. Below it each list of names that enough of them go on with has one node,
which counts them, and there is no other; the tree is pruned where some go on with names that too few go on with. -/
theorem path_counts_followed (done : path floatText question guards rows incomplete identity = .ok result) :
    (result.root.isNone ↔ reaching floatText question identity rows [] = 0) ∧
      (∀ root, result.root = some root → root.count = reaching floatText question identity rows [] ∧
        Counts question (reaching floatText question identity rows) root.descendants) ∧
      (result.pruned = true ↔ LeftOut question (reaching floatText question identity rows)) := by
  obtain ⟨_, -, done⟩ := Project.bind_eq_ok.mp done
  obtain ⟨held, taken, done⟩ := Project.bind_eq_ok.mp done
  obtain rfl := rowsByKey_ok taken
  obtain ⟨sequences, followed, done⟩ := Project.bind_eq_ok.mp done
  have all := sequencesFrom_ok followed
  rw [← values_ordered] at all
  have counts : coming 0 sequences = reaching floatText question identity rows := by
    rw [all]
    exact funext coming_followed
  have short : ∀ sequence ∈ sequences, sequence.length ≤ 0 + 1 + question.depth := by
    rw [all]
    intro sequence inside
    obtain ⟨owned, -, found⟩ := List.mem_filterMap.mp inside
    exact length_sequenceOf found
  rw [← counts, coming_nil]
  cases sequences with
  | nil =>
    cases done
    refine ⟨iff_of_true rfl rfl, fun root found => (by cases found), iff_of_false Bool.false_ne_true ?_⟩
    rintro ⟨_, -, positive, -⟩
    exact absurd positive (lt_irrefl 0)
  | cons first rest =>
    obtain ⟨⟨root, building⟩, built, done⟩ := Project.bind_eq_ok.mp done
    cases done
    have made := buildNode_ok short built
    refine ⟨iff_of_false Bool.false_ne_true (by simp), fun other found => ?_, ?_⟩
    · cases found
      exact ⟨made.count, made.below⟩
    · exact made.pruned.trans (or_iff_right Bool.false_ne_true)

end

def fromEntry : PathQuestion :=
  ⟨fun row => row.name = "start" || row.name = "open", true, 1, 1, false, .session, .eventTime⟩

def roomy : PathGuards := ⟨⟨20, 1100, 2000000, 0, fun _ => false, fun _ => false⟩, 12, 10000⟩

def arrivals : List EventRow :=
  [{ EventRow.new 1 "event" "start" 0 with sessionId := some "a" },
    { EventRow.new 2 "event" "next" 100 with sessionId := some "a" },
    { EventRow.new 3 "event" "open" 0 with sessionId := some "b" },
    { EventRow.new 4 "event" "next" 100 with sessionId := some "b" }]

theorem path_arrivals : ∃ result root, path (fun _ => "") fromEntry roomy arrivals false (.start 1) = .ok result ∧
    result.root = some root ∧ root.name = "start" ∧ root.count = 2 := by
  have seen : ((path (fun _ => "") fromEntry roomy arrivals false (.start 1)).toOption.bind PathResult.root).map
      (fun root => (root.name, root.count)) = some ("start", 2) := by decide +kernel
  cases done : path (fun _ => "") fromEntry roomy arrivals false (.start 1) with
  | error e =>
    rw [done] at seen
    cases seen
  | ok result =>
    rw [done] at seen
    obtain ⟨root, found, same⟩ := Option.map_eq_some_iff.mp seen
    exact ⟨result, root, rfl, found, congrArg Prod.fst same, congrArg Prod.snd same⟩

theorem path_counts_followed_arrivals : ∃ result,
    path (fun _ => "") fromEntry roomy arrivals false (.start 1) = .ok result ∧
      (result.pruned = true ↔ LeftOut fromEntry (reaching (fun _ => "") fromEntry (.start 1) arrivals)) := by
  obtain ⟨result, _, done, -⟩ := path_arrivals
  exact ⟨result, done, (path_counts_followed done).2.2⟩

/-- The root counts a session whose sequence begins with another anchor's name. -/
theorem root_counts_other_anchors : ¬ ∀ (rows : List EventRow) (question : PathQuestion) (guards : PathGuards)
    (identity : Identity) (result : PathResult) (root : PathNode), (rows.map EventRow.eventId).Nodup →
      path (fun _ => "") question guards rows false identity = .ok result → result.root = some root →
      root.count = ((keysOf (question.keyOf identity) rows).filter fun key =>
        ((sequenceOf (fun _ => "") question (rowsOf (question.keyOf identity) rows key)).any fun sequence =>
          [root.name].isPrefixOf sequence) = true).card := by
  intro counts
  obtain ⟨result, root, done, found, name, count⟩ := path_arrivals
  have one := counts arrivals fromEntry roomy (.start 1) result root (by decide) done found
  rw [name, count] at one
  revert one
  decide +kernel

end TallyOwl.Analysis
