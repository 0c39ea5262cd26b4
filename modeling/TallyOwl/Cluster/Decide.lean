import TallyOwl.Cluster.Recovery

/-! What the cell controller recommends (`controller.rs`). A decision is a function of the topology and the
measurements: the health of nodes first, then the splits and merges there is room for. Names for new tablets
are made from old ones, and who holds a tablet is left to the topology to compare. -/
open TallyOwl.Lib.OrderedMap

namespace TallyOwl.Controller
open Lib

inductive Mode where
  | automatic
  | recommendOnly
  | paused
  deriving DecidableEq

structure TabletLoad where
  storedBytes : Nat
  acceptedBytesEachSecond : Nat
  compactionBacklogBytes : Nat
  replicaLagMs : Int
  queryMillisecondsEachSecond : Nat
  deriving DecidableEq

structure Thresholds where
  splitAboveBytes : Nat
  mergeBelowBytes : Nat
  moveBelowFreeBytes : Nat
  concurrentChanges : Nat
  deriving DecidableEq

def Thresholds.default : Thresholds := ⟨64 * 1024 ^ 3, 8 * 1024 ^ 3, 16 * 1024 ^ 3, 1⟩

inductive SlowCause where
  | storageErrors
  | storageSaturated
  | storageSlow
  | writeVolume
  | compactionPressure
  | memoryPressure
  | networkLatency
  | unknown
  deriving DecidableEq

def SlowCause.asStr : SlowCause → String
  | .storageErrors => "storage-errors"
  | .storageSaturated => "storage-saturated"
  | .storageSlow => "storage-slow"
  | .writeVolume => "write-volume"
  | .compactionPressure => "compaction-pressure"
  | .memoryPressure => "memory-pressure"
  | .networkLatency => "network-latency"
  | .unknown => "unknown"

inductive SlowAction where
  | alert
  | demote
  deriving DecidableEq

/-- What the health watch decided about one node, and the evidence for it. -/
structure Condition where
  node : String
  state : NodeState
  cause : Option SlowCause
  appendLatencyUs : Nat
  groupMedianAppendLatencyUs : Nat
  fsyncLatencyUs : Nat
  groupMedianFsyncLatencyUs : Nat
  since : Int
  writable : Bool
  freeBytes : Nat
  deriving DecidableEq

/-- One thing the controller thinks should happen, and why. -/
structure Recommendation where
  command : ControllerCommand
  because : String
  deriving DecidableEq

structure CellController where
  mode : Mode
  thresholds : Thresholds
  slowAction : SlowAction
  deriving DecidableEq

namespace CellController
variable (controller : CellController) (topology : Topology) (load : OrderedMap String TabletLoad)

def slowActionText : String :=
  match controller.slowAction with
  | .alert => "the state was raised and an operator decides"
  | .demote => "the controller demoted this voter"

def conditionText (condition : Condition) : String :=
  match condition.state with
  | .slow =>
      s!"`{condition.node}` took {condition.appendLatencyUs} microseconds to append against a group median of " ++
        s!"{condition.groupMedianAppendLatencyUs}, and {condition.fsyncLatencyUs} to fsync against a median of " ++
        s!"{condition.groupMedianFsyncLatencyUs}, for longer than the configured period. Cause: " ++
        s!"{(condition.cause.map SlowCause.asStr).getD (SlowCause.asStr .unknown)}. Action: " ++
        s!"{controller.slowActionText}."
  | .readOnly =>
      s!"`{condition.node}` reported that it cannot make a write durable, with {condition.freeBytes} bytes free. " ++
        "It stops accepting appends and the quorum continues without it."
  | .unreachable => s!"`{condition.node}` has not reported for longer than its lease."
  | _ => s!"`{condition.node}` is healthy again."

def forCondition (condition : Condition) : Option Recommendation :=
  match topology.nodes.get? condition.node with
  | none => none
  | some known =>
      if known.state = condition.state ∧ known.writable = condition.writable ∧
          known.freeBytes = condition.freeBytes then none
      else
        some ⟨.setNodeCondition condition.node condition.state (condition.cause.map SlowCause.asStr) condition.since
          condition.writable condition.freeBytes, controller.conditionText condition⟩

/-- The tablet is over the split threshold and has a shard to give. -/
def Oversized (t : Tablet) : Prop :=
  t.state = .active ∧ (load.get? t.name).any fun measured =>
    measured.storedBytes > controller.thresholds.splitAboveBytes ∧ t.shardEnd - t.shardStart > 1

instance (t : Tablet) : Decidable (controller.Oversized load t) := inferInstanceAs (Decidable (_ ∧ _))

def splitAt (t : Tablet) : Nat := t.shardStart + (t.shardEnd - t.shardStart) / 2

def rightName (t : Tablet) : String := s!"{t.name}-b"

def recommendSplit (t : Tablet) : Recommendation where
  command := .splitTablet t.name (splitAt t) (rightName t)
  because := s!"`{t.name}` holds {((load.get? t.name).map TabletLoad.storedBytes).getD 0} bytes and the split threshold is " ++
    s!"{controller.thresholds.splitAboveBytes}. Splitting at virtual shard {splitAt t} halves the range and moves no shard."

/-- The pass over single tablets, which ends where there is no more room. -/
def splitPass (room : Nat) : List Tablet → (placement : List Recommendation) → List Recommendation
  | [], placement => placement
  | t :: tablets, placement =>
      if placement.length ≥ room then placement
      else if controller.Oversized load t then
        splitPass room tablets (placement ++ [controller.recommendSplit load t])
      else splitPass room tablets placement

def BothSmall (left right : Tablet) : Prop :=
  left.shardEnd = right.shardStart ∧ left.state = .active ∧ right.state = .active ∧
    (load.get? left.name).any (fun measured => measured.storedBytes < controller.thresholds.mergeBelowBytes) ∧
    (load.get? right.name).any fun measured => measured.storedBytes < controller.thresholds.mergeBelowBytes

instance (left right : Tablet) : Decidable (controller.BothSmall load left right) :=
  inferInstanceAs (Decidable (_ ∧ _))

def recommendMerge (left right : Tablet) : Recommendation where
  command := .mergeTablets left.name right.name
  because := s!"`{left.name}` and `{right.name}` are adjacent and hold " ++
    s!"{((load.get? left.name).map TabletLoad.storedBytes).getD 0} and " ++
    s!"{((load.get? right.name).map TabletLoad.storedBytes).getD 0} bytes, both under the merge threshold of " ++
    s!"{controller.thresholds.mergeBelowBytes}. One tablet costs one consensus group instead of two."

/-- The pass over pairs of tablets that stand side by side in the order of their names. -/
def mergePass (room : Nat) : List Tablet → (placement : List Recommendation) → List Recommendation
  | left :: right :: tablets, placement =>
      if placement.length ≥ room then placement
      else if controller.BothSmall load left right then
        mergePass room (right :: tablets) (placement ++ [controller.recommendMerge load left right])
      else mergePass room (right :: tablets) placement
  | _, placement => placement

def inFlight : Nat := (topology.tablets.values.filter fun t => t.state ≠ .active ∧ t.state ≠ .retired).length

def room : Nat := controller.thresholds.concurrentChanges - inFlight topology

def decide (conditions : List Condition) : List Recommendation :=
  if controller.mode = .paused then []
  else
    let health := conditions.filterMap (controller.forCondition topology)
    let room := controller.room topology
    let splits := controller.splitPass load room topology.tablets.values []
    let placement := if splits.length < room then controller.mergePass load room topology.tablets.values splits else splits
    health ++ placement

/-! What the passes pick. -/

def splits : List Tablet :=
  (topology.tablets.values.filter fun t => controller.Oversized load t).take (controller.room topology)

def pairs : List Tablet → List (Tablet × Tablet)
  | left :: right :: tablets => (left, right) :: pairs (right :: tablets)
  | _ => []

/-- The pairs that a pass picks for a merge, in the room that the splits leave. -/
def merges : List (Tablet × Tablet) :=
  ((pairs topology.tablets.values).filter fun p => controller.BothSmall load p.1 p.2).take
    (controller.room topology - (controller.splits topology load).length)

variable {controller topology load} {room : Nat}

theorem splitPass_eq (tablets : List Tablet) (placement : List Recommendation) (few : placement.length ≤ room) :
    controller.splitPass load room tablets placement = placement ++
      ((tablets.filter fun t => controller.Oversized load t).take (room - placement.length)).map
        (controller.recommendSplit load) := by
  induction tablets generalizing placement with
  | nil => simp [splitPass]
  | cons t tablets ih =>
    unfold splitPass
    split
    · rename_i full
      rw [Nat.sub_eq_zero_of_le full, List.take_zero, List.map_nil, List.append_nil]
    · rename_i more
      obtain ⟨left, spare⟩ := Nat.exists_eq_succ_of_ne_zero (show room - placement.length ≠ 0 by omega)
      split
      · rename_i oversized
        have rest : room - (placement ++ [controller.recommendSplit load t]).length = left := by
          rw [List.length_append, List.length_singleton]
          omega
        rw [ih _ (by rw [List.length_append, List.length_singleton]; omega), rest, spare,
          List.filter_cons_of_pos (by simpa using oversized), List.take_succ_cons, List.map_cons, List.append_assoc]
        rfl
      · rename_i fits
        rw [ih _ few, List.filter_cons_of_neg (by simpa using fits)]

theorem mergePass_eq (tablets : List Tablet) (placement : List Recommendation) (few : placement.length ≤ room) :
    controller.mergePass load room tablets placement = placement ++
      (((pairs tablets).filter fun p => controller.BothSmall load p.1 p.2).take (room - placement.length)).map
        fun p => controller.recommendMerge load p.1 p.2 := by
  induction tablets generalizing placement with
  | nil => simp [mergePass, pairs]
  | cons first tablets ih =>
    cases tablets with
    | nil => simp [mergePass, pairs]
    | cons second tablets =>
      unfold mergePass pairs
      split
      · rename_i full
        rw [Nat.sub_eq_zero_of_le full, List.take_zero, List.map_nil, List.append_nil]
      · rename_i more
        obtain ⟨left, spare⟩ := Nat.exists_eq_succ_of_ne_zero (show room - placement.length ≠ 0 by omega)
        split
        · rename_i small
          have rest : room - (placement ++ [controller.recommendMerge load first second]).length = left := by
            rw [List.length_append, List.length_singleton]
            omega
          rw [ih _ (by rw [List.length_append, List.length_singleton]; omega), rest, spare,
            List.filter_cons_of_pos (by simpa using small), List.take_succ_cons, List.map_cons, List.append_assoc]
          rfl
        · rename_i large
          rw [ih _ few, List.filter_cons_of_neg (by simpa using large)]

theorem decide_eq (running : controller.mode ≠ .paused) (conditions : List Condition) :
    controller.decide topology load conditions = conditions.filterMap (controller.forCondition topology) ++
      ((controller.splits topology load).map (controller.recommendSplit load) ++
        (controller.merges topology load).map fun p => controller.recommendMerge load p.1 p.2) := by
  have first := @splitPass_eq controller load (controller.room topology) topology.tablets.values [] (Nat.zero_le _)
  rw [List.nil_append, List.length_nil, Nat.sub_zero] at first
  have length : ((controller.splits topology load).map (controller.recommendSplit load)).length ≤
      controller.room topology := by
    rw [List.length_map, splits]
    exact List.length_take_le _ _
  rw [decide, if_neg running]
  dsimp only
  rw [first]
  change _ ++ (if ((controller.splits topology load).map (controller.recommendSplit load)).length < _ then
    controller.mergePass load _ _ ((controller.splits topology load).map (controller.recommendSplit load)) else
      (controller.splits topology load).map (controller.recommendSplit load)) = _
  split
  · rw [mergePass_eq _ _ length, List.length_map]
    rfl
  · rename_i full
    have none : controller.merges topology load = [] := by
      rw [merges, Nat.sub_eq_zero_of_le, List.take_zero]
      rw [List.length_map] at full
      omega
    rw [none, List.map_nil, List.append_nil]

end CellController

/-! Runs of what is recommended. -/

section
variable {topology : Topology}

theorem setNodeCondition_spec {node : String} (known : topology.nodes.get? node ≠ none) (state : NodeState)
    (cause : Option String) (moment : Int) (writable : Bool) (freeBytes : Nat) :
    topology.Accepted (.setNodeCondition node state cause moment writable freeBytes) ∧
      (topology.after (.setNodeCondition node state cause moment writable freeBytes)).tablets = topology.tablets ∧
      ∀ name, topology.nodes.get? name ≠ none →
        (topology.after (.setNodeCondition node state cause moment writable freeBytes)).nodes.get? name ≠ none := by
  obtain ⟨existing, there⟩ := Option.ne_none_iff_exists'.mp known
  have nodes : ∀ command, (topology.after command).nodes = (topology.applyInner command).2.nodes := by
    intro command
    rw [Topology.after, Topology.apply]
    split
    · rename_i found
      rw [found]
    · rename_i changed after found
      rw [found]
      cases changed <;> rfl
  rw [Topology.accepted_iff, nodes, Topology.after, tablets_apply]
  simp only [Topology.applyInner, Topology.setNodeCondition, there]
  split
  · exact ⟨⟨_, rfl⟩, rfl, fun _ kept => kept⟩
  · refine ⟨⟨_, rfl⟩, rfl, fun name kept => ?_⟩
    dsimp only
    rw [get?_insert]
    split
    · simp
    · exact kept

theorem health_run (controller : CellController) (first : Topology) (conditions : List Condition)
    (known : ∀ name, first.nodes.get? name ≠ none → topology.nodes.get? name ≠ none) :
    Topology.Along Topology.Accepted topology
        ((conditions.filterMap (controller.forCondition first)).map Recommendation.command) ∧
      (topology.run ((conditions.filterMap (controller.forCondition first)).map Recommendation.command)).tablets =
        topology.tablets := by
  induction conditions generalizing topology with
  | nil => exact ⟨trivial, rfl⟩
  | cons condition conditions ih =>
    rw [List.filterMap_cons]
    cases chosen : controller.forCondition first condition with
    | none => exact ih known
    | some recommendation =>
      unfold CellController.forCondition at chosen
      split at chosen
      · cases chosen
      · rename_i there
        split at chosen
        · cases chosen
        · cases chosen
          obtain ⟨taken, tablets, kept⟩ := setNodeCondition_spec (known _ (by rw [there]; simp)) condition.state
            (condition.cause.map SlowCause.asStr) condition.since condition.writable condition.freeBytes
          obtain ⟨along, rest⟩ := ih fun name is => kept name (known name is)
          exact ⟨⟨taken, along⟩, rest.trans tablets⟩

def leftHalf (t : Tablet) : Tablet := { t with shardEnd := CellController.splitAt t, state := .active }

open CellController

theorem error_not_ok {ε α : Type} {e : ε} : ¬ ∃ changed : α, Except.error e = .ok changed := by
  rintro ⟨changed, is⟩
  cases is

theorem splitTablet_spec {t : Tablet} {right : String} (held : topology.tablets.get? t.name = some t)
    (wide : t.shardEnd - t.shardStart > 1) :
    (topology.Accepted (.splitTablet t.name (splitAt t) right) ↔ topology.tablets.get? right = none) ∧
      (topology.tablets.get? right = none → (topology.after (.splitTablet t.name (splitAt t) right)).tablets =
          (topology.tablets.insert t.name (leftHalf t)).insert right
            { t with name := right, shardStart := splitAt t, state := .active }) := by
  have inside : ¬ (splitAt t ≤ t.shardStart ∨ splitAt t ≥ t.shardEnd) := by
    unfold splitAt
    omega
  rw [Topology.accepted_iff, Topology.after, tablets_apply, Topology.applyInner, Topology.splitTablet]
  by_cases fresh : topology.tablets.get? right = none
  · rw [if_neg (not_not.mpr fresh), held]
    dsimp only
    rw [if_neg inside]
    exact ⟨⟨fun _ => fresh, fun _ => ⟨_, rfl⟩⟩, fun _ => rfl⟩
  · rw [if_pos fresh]
    exact ⟨⟨fun is => (error_not_ok is).elim, fun is => (fresh is).elim⟩, fun is => (fresh is).elim⟩

theorem rightName_injective {t u : Tablet} (same : rightName t = rightName u) : t.name = u.name := by
  have whole := congrArg String.toList same
  simp only [rightName, toString, String.toList_append] at whole
  exact String.toList_inj.mp (List.append_cancel_right whole)

/-- Splits are taken where their new names are free, and change only the tablets they name. -/
theorem splits_run (chosen : List Tablet) (held : ∀ t ∈ chosen, topology.tablets.get? t.name = some t)
    (wide : ∀ t ∈ chosen, t.shardEnd - t.shardStart > 1) (apart : chosen.Pairwise fun t u => t.name ≠ u.name) :
    (Topology.Along Topology.Accepted topology (chosen.map fun t => .splitTablet t.name (splitAt t) (rightName t)) ↔
      ∀ t ∈ chosen, topology.tablets.get? (rightName t) = none) ∧
    ((∀ t ∈ chosen, topology.tablets.get? (rightName t) = none) → ∀ u, topology.tablets.get? u.name = some u →
      (topology.run (chosen.map fun t => .splitTablet t.name (splitAt t) (rightName t))).tablets.get? u.name =
        some (if u ∈ chosen then leftHalf u else u)) := by
  induction chosen generalizing topology with
  | nil => exact ⟨⟨fun _ t inside => (by cases inside), fun _ => trivial⟩, fun _ u there => there⟩
  | cons t chosen ih =>
    obtain ⟨own, others⟩ := List.forall_mem_cons.mp held
    obtain ⟨accepted, left⟩ := @splitTablet_spec topology t (rightName t) own (wide t List.mem_cons_self)
    obtain ⟨first, rest⟩ := List.pairwise_cons.mp apart
    -- what the rest of the list sees behind the first split
    have seen (fresh : topology.tablets.get? (rightName t) = none) :
        (∀ u, topology.tablets.get? u.name = some u → u.name ≠ t.name →
          (topology.after (.splitTablet t.name (splitAt t) (rightName t))).tablets.get? u.name = some u) ∧
        (topology.after (.splitTablet t.name (splitAt t) (rightName t))).tablets.get? t.name = some (leftHalf t) ∧
        ∀ u ∈ chosen, ((topology.after (.splitTablet t.name (splitAt t) (rightName t))).tablets.get? (rightName u) = none ↔
          topology.tablets.get? (rightName u) = none) := by
      have old {u : Tablet} (there : topology.tablets.get? u.name = some u) : u.name ≠ rightName t := by
        intro same
        rw [same, fresh] at there
        cases there
      rw [left fresh]
      refine ⟨fun u there other => ?_, ?_, fun u inside => ?_⟩
      · rw [get?_insert, if_neg (old there), get?_insert, if_neg other, there]
      · rw [get?_insert, if_neg (old own), get?_insert, if_pos rfl]
      · have other : rightName u ≠ rightName t := fun same => first u inside (rightName_injective same).symm
        rw [get?_insert, if_neg other, get?_insert]
        split
        · rename_i same
          rw [same, own]
          simp
        · rfl
    constructor
    · constructor
      · rintro ⟨taken, later⟩
        have fresh := accepted.mp taken
        obtain ⟨kept, -, names⟩ := seen fresh
        have each := (ih (fun u inside => kept u (others u inside) (first u inside).symm)
          (fun u inside => wide u (List.mem_cons_of_mem _ inside)) rest).1.mp later
        exact List.forall_mem_cons.mpr ⟨fresh, fun u inside => (names u inside).mp (each u inside)⟩
      · intro free
        obtain ⟨fresh, each⟩ := List.forall_mem_cons.mp free
        obtain ⟨kept, -, names⟩ := seen fresh
        exact ⟨accepted.mpr fresh, (ih (fun u inside => kept u (others u inside) (first u inside).symm)
          (fun u inside => wide u (List.mem_cons_of_mem _ inside)) rest).1.mpr
            fun u inside => (names u inside).mpr (each u inside)⟩
    · intro free u there
      obtain ⟨fresh, each⟩ := List.forall_mem_cons.mp free
      obtain ⟨kept, half, names⟩ := seen fresh
      have later := (ih (fun u inside => kept u (others u inside) (first u inside).symm)
        (fun u inside => wide u (List.mem_cons_of_mem _ inside)) rest).2
          fun u inside => (names u inside).mpr (each u inside)
      by_cases named : u.name = t.name
      · rw [named] at there ⊢
        obtain rfl := Option.some.inj (own.symm.trans there)
        have gone : leftHalf t ∉ chosen := fun inside => first _ inside rfl
        rw [if_pos List.mem_cons_self]
        exact (later (leftHalf t) half).trans (by rw [if_neg gone])
      · have other : u ≠ t := fun same => named (congrArg Tablet.name same)
        refine (later u (kept u there named)).trans ?_
        simp only [List.mem_cons, other, false_or]

theorem mergeTablets_spec {left right : Tablet} {r : Tablet}
    (heldRight : topology.tablets.get? right.name = some r) (start : r.shardStart = right.shardStart)
    (members : r.members = right.members) {whole : Prop} (heldLeft : ∀ l, topology.tablets.get? left.name = some l →
      l.members = left.members ∧ (l.shardEnd = right.shardStart ↔ whole)) :
    (topology.Accepted (.mergeTablets left.name right.name) ↔ topology.tablets.get? left.name ≠ none ∧ whole ∧
      left.members.map Member.node = right.members.map Member.node) ∧
    (topology.Accepted (.mergeTablets left.name right.name) → ∀ name, name ≠ left.name →
      (topology.after (.mergeTablets left.name right.name)).tablets.get? name =
        if name = right.name then none else topology.tablets.get? name) := by
  rw [Topology.accepted_iff, Topology.after, tablets_apply, Topology.applyInner, Topology.mergeTablets, heldRight]
  cases there : topology.tablets.get? left.name with
  | none => exact ⟨⟨fun is => (error_not_ok is).elim, fun is => (is.1 rfl).elim⟩, fun is => (error_not_ok is).elim⟩
  | some l =>
    obtain ⟨same, adjacent⟩ := heldLeft l there
    dsimp only
    rw [start, members, same]
    split
    · rename_i hole
      exact ⟨⟨fun is => (error_not_ok is).elim, fun is => (hole (adjacent.mpr is.2.1)).elim⟩,
        fun is => (error_not_ok is).elim⟩
    · rename_i meets
      split
      · rename_i strangers
        exact ⟨⟨fun is => (error_not_ok is).elim, fun is => (strangers is.2.2).elim⟩,
          fun is => (error_not_ok is).elim⟩
      · rename_i alike
        refine ⟨⟨fun _ => ⟨by simp, adjacent.mp (not_not.mp meets), not_not.mp alike⟩, fun _ => ⟨_, rfl⟩⟩,
          fun _ name other => ?_⟩
        dsimp only
        rw [get?_erase, get?_insert, if_neg other]

structure Mergeable (topology : Topology) (split : List Tablet) (p : Tablet × Tablet) : Prop where
  right : ∃ r, topology.tablets.get? p.2.name = some r ∧ r.shardStart = p.2.shardStart ∧ r.members = p.2.members
  left : ∀ l, topology.tablets.get? p.1.name = some l →
    l.members = p.1.members ∧ (l.shardEnd = p.2.shardStart ↔ p.1 ∉ split)

def Behind (p q : Tablet × Tablet) : Prop :=
  q.1.name ≠ p.1.name ∧ q.2.name ≠ p.1.name ∧ q.2.name ≠ p.2.name

/-- Merges are taken where the nodes are the same, the left tablet was not split, and no merge before it took
the left tablet in. -/
theorem merges_run (split : List Tablet) (chosen : List (Tablet × Tablet))
    (ready : ∀ p ∈ chosen, Mergeable topology split p) (behind : chosen.Pairwise Behind) :
    Topology.Along Topology.Accepted topology (chosen.map fun p => .mergeTablets p.1.name p.2.name) ↔
      (∀ p ∈ chosen, topology.tablets.get? p.1.name ≠ none ∧ p.1 ∉ split ∧
        p.1.members.map Member.node = p.2.members.map Member.node) ∧
        chosen.Pairwise fun p q => p.2.name ≠ q.1.name := by
  induction chosen generalizing topology with
  | nil => exact ⟨fun _ => ⟨fun p inside => (by cases inside), .nil⟩, fun _ => trivial⟩
  | cons p chosen ih =>
    obtain ⟨own, others⟩ := List.forall_mem_cons.mp ready
    obtain ⟨first, rest⟩ := List.pairwise_cons.mp behind
    obtain ⟨r, heldRight, start, members⟩ := own.right
    obtain ⟨accepted, seen⟩ := mergeTablets_spec heldRight start members own.left
    have later (taken : topology.Accepted (.mergeTablets p.1.name p.2.name)) : ∀ q ∈ chosen,
        Mergeable (topology.after (.mergeTablets p.1.name p.2.name)) split q := by
      intro q inside
      obtain ⟨other, one, two⟩ := first q inside
      obtain ⟨r, there, facts⟩ := (others q inside).right
      refine ⟨⟨r, ?_, facts⟩, fun l found => ?_⟩
      · rw [seen taken _ one, if_neg two, there]
      · rw [seen taken _ other] at found
        split at found
        · cases found
        · exact (others q inside).left l found
    rw [List.pairwise_cons, List.forall_mem_cons, List.map_cons, ← accepted]
    constructor
    · rintro ⟨taken, along⟩
      obtain ⟨each, apart⟩ := (ih (later taken) rest).mp along
      have facts : ∀ q ∈ chosen, p.2.name ≠ q.1.name ∧ topology.tablets.get? q.1.name ≠ none := by
        intro q inside
        obtain ⟨there, -⟩ := each q inside
        rw [seen taken _ (first q inside).1] at there
        split at there
        · exact (there rfl).elim
        · rename_i apart
          exact ⟨fun same => apart same.symm, there⟩
      exact ⟨⟨taken, fun q inside => ⟨(facts q inside).2, (each q inside).2⟩⟩,
        fun q inside => (facts q inside).1, apart⟩
    · rintro ⟨⟨taken, each⟩, alone, apart⟩
      refine ⟨taken, (ih (later taken) rest).mpr ⟨fun q inside => ⟨?_, (each q inside).2⟩, apart⟩⟩
      rw [seen taken _ (first q inside).1, if_neg (alone q inside).symm]
      exact (each q inside).1

/-! Decisions over runs. -/

theorem mem_of_pairs {first : Tablet} {tablets : List Tablet} {p : Tablet × Tablet}
    (inside : p ∈ pairs (first :: tablets)) : p.1 ∈ first :: tablets ∧ p.2 ∈ tablets := by
  induction tablets generalizing first with
  | nil => cases inside
  | cons second tablets ih =>
    rw [pairs, List.mem_cons] at inside
    rcases inside with rfl | later
    · exact ⟨List.mem_cons_self, List.mem_cons_self⟩
    · obtain ⟨left, right⟩ := ih later
      exact ⟨List.mem_cons_of_mem _ left, List.mem_cons_of_mem _ right⟩

theorem pairs_behind {tablets : List Tablet} (apart : tablets.Pairwise fun t u => t.name ≠ u.name) :
    (pairs tablets).Pairwise Behind := by
  induction tablets with
  | nil => exact .nil
  | cons first tablets ih =>
    cases tablets with
    | nil => exact .nil
    | cons second tablets =>
      obtain ⟨away, rest⟩ := List.pairwise_cons.mp apart
      refine List.pairwise_cons.mpr ⟨fun q inside => ?_, ih rest⟩
      obtain ⟨left, right⟩ := mem_of_pairs inside
      exact ⟨(away _ left).symm, (away _ (List.mem_cons_of_mem _ right)).symm,
        ((List.pairwise_cons.mp rest).1 _ right).symm⟩

theorem mem_pairs {tablets : List Tablet} {p : Tablet × Tablet} (inside : p ∈ pairs tablets) :
    p.1 ∈ tablets ∧ p.2 ∈ tablets := by
  cases tablets with
  | nil => cases inside
  | cons first tablets =>
    obtain ⟨left, right⟩ := mem_of_pairs inside
    exact ⟨left, List.mem_cons_of_mem _ right⟩

theorem values_named (formed : Formed topology.tablets) :
    (∀ t ∈ topology.tablets.values, topology.tablets.get? t.name = some t) ∧
      topology.tablets.values.Pairwise fun t u => t.name ≠ u.name := by
  have named : ∀ x ∈ topology.tablets.entries, x.2.name = x.1 := fun x inside =>
    formed.named _ _ (get?_eq_some.mpr inside)
  constructor
  · intro t inside
    obtain ⟨k, there⟩ := mem_values_iff.mp inside
    rw [formed.named k t there, there]
  · have keys := List.pairwise_map.mp topology.tablets.nodup_keys
    refine List.pairwise_map.mpr (keys.imp_of_mem fun first second apart => ?_)
    rw [named _ first, named _ second]
    exact apart

end

def placementChange : ControllerCommand → Bool
  | .setNodeCondition .. => false
  | _ => true

namespace CellController
variable (controller : CellController) (topology : Topology) (load : OrderedMap String TabletLoad)

/-- What is recommended is taken by the topology, one after the other, and starts no more changes than may run. -/
def Sound (conditions : List Condition) : Prop :=
  Topology.Along Topology.Accepted topology
      ((controller.decide topology load conditions).map Recommendation.command) ∧
    ((controller.decide topology load conditions).filter fun r => placementChange r.command).length ≤
      controller.thresholds.concurrentChanges - inFlight topology

/-- The new names are free, and the neighbours to merge are held by the same nodes, were not split and do not
follow on each other. -/
def Fits : Prop :=
  (∀ t ∈ controller.splits topology load, topology.tablets.get? (rightName t) = none) ∧
    (∀ p ∈ controller.merges topology load, p.1 ∉ controller.splits topology load ∧
      p.1.members.map Member.node = p.2.members.map Member.node) ∧
    (controller.merges topology load).Pairwise fun p q => p.2.name ≠ q.1.name

variable {controller topology load}

theorem mem_splits {t : Tablet} (inside : t ∈ controller.splits topology load) :
    t ∈ topology.tablets.values ∧ t.shardEnd - t.shardStart > 1 := by
  obtain ⟨there, oversized⟩ := List.mem_filter.mp (List.mem_of_mem_take inside)
  obtain ⟨-, exceeds⟩ := of_decide_eq_true oversized
  obtain ⟨measured, -, large⟩ := (Option.any_eq_true _ _).mp exceeds
  exact ⟨there, (of_decide_eq_true large).2⟩

theorem mem_merges {p : Tablet × Tablet} (inside : p ∈ controller.merges topology load) :
    p.1 ∈ topology.tablets.values ∧ p.2 ∈ topology.tablets.values ∧ p.1.shardEnd = p.2.shardStart := by
  obtain ⟨there, small⟩ := List.mem_filter.mp (List.mem_of_mem_take inside)
  obtain ⟨left, right⟩ := mem_pairs there
  exact ⟨left, right, (of_decide_eq_true small).1⟩

theorem placement_few (conditions : List Condition) :
    ((controller.decide topology load conditions).filter fun r => placementChange r.command).length ≤
      controller.room topology := by
  by_cases paused : controller.mode = .paused
  · rw [decide, if_pos paused]
    exact Nat.zero_le _
  have health : (conditions.filterMap (controller.forCondition topology)).filter
      (fun r => placementChange r.command) = [] := by
    refine List.filter_eq_nil_iff.mpr fun r inside => ?_
    obtain ⟨condition, -, chosen⟩ := List.mem_filterMap.mp inside
    unfold forCondition at chosen
    split at chosen
    · cases chosen
    · split at chosen
      · cases chosen
      · cases chosen
        simp [placementChange]
  have splits : (controller.splits topology load).length ≤ controller.room topology := List.length_take_le _ _
  have merges : (controller.merges topology load).length ≤
      controller.room topology - (controller.splits topology load).length := List.length_take_le _ _
  rw [decide_eq paused, List.filter_append, health, List.nil_append]
  refine (List.length_filter_le _ _).trans ?_
  rw [List.length_append, List.length_map, List.length_map]
  omega

/-- A decision over a run of commands is taken by the topology exactly where it fits. -/
theorem sound_iff (commands : List ControllerCommand) (controller : CellController)
    (load : OrderedMap String TabletLoad) (conditions : List Condition) :
    controller.Sound (Topology.new.run commands) load conditions ↔
      controller.mode = .paused ∨ controller.Fits (Topology.new.run commands) load := by
  set topology := Topology.new.run commands
  have formed : Formed topology.tablets := Topology.formed_run Topology.formed_new commands
  obtain ⟨held, apart⟩ := values_named formed
  by_cases paused : controller.mode = .paused
  · rw [Sound, decide, if_pos paused]
    exact ⟨fun _ => .inl paused, fun _ => ⟨trivial, Nat.zero_le _⟩⟩
  -- the health of the nodes leaves the tablets alone
  set health := conditions.filterMap (controller.forCondition topology)
  obtain ⟨taken, same⟩ := @health_run topology controller topology conditions fun _ known => known
  set mid := topology.run (health.map Recommendation.command)
  set chosen := controller.splits topology load
  set joined := controller.merges topology load
  have commandsOf : (controller.decide topology load conditions).map Recommendation.command =
      health.map Recommendation.command ++
        (chosen.map (fun t => .splitTablet t.name (splitAt t) (rightName t)) ++
          joined.map fun p => .mergeTablets p.1.name p.2.name) := by
    rw [decide_eq paused, List.map_append, List.map_append, List.map_map, List.map_map]
    rfl
  have there : ∀ t ∈ topology.tablets.values, mid.tablets.get? t.name = some t := by
    rw [same]
    exact held
  obtain ⟨splitsTaken, left⟩ := @splits_run mid chosen (fun t inside => there t (mem_splits inside).1)
    (fun t inside => (mem_splits inside).2) ((apart.sublist List.filter_sublist).sublist (List.take_sublist _ _))
  rw [same] at splitsTaken left
  have ready (free : ∀ t ∈ chosen, topology.tablets.get? (rightName t) = none) : ∀ p ∈ joined, Mergeable
      (mid.run (chosen.map fun t => .splitTablet t.name (splitAt t) (rightName t))) chosen p ∧
        (mid.run (chosen.map fun t => .splitTablet t.name (splitAt t) (rightName t))).tablets.get? p.1.name ≠ none := by
    intro p inside
    obtain ⟨first, second, meets⟩ := mem_merges inside
    have one := left free _ (held _ first)
    have two := left free _ (held _ second)
    refine ⟨⟨⟨_, two, ?_, ?_⟩, fun l found => ?_⟩, by rw [one]; simp⟩
    · split <;> rfl
    · split <;> rfl
    · obtain rfl := Option.some.inj (one.symm.trans found)
      split
      · rename_i halved
        have wide := (mem_splits halved).2
        refine ⟨rfl, iff_of_false ?_ (not_not.mpr halved)⟩
        rw [← meets]
        change splitAt p.1 ≠ _
        unfold splitAt
        omega
      · rename_i whole
        exact ⟨rfl, iff_of_true meets whole⟩
  have behind : joined.Pairwise Behind :=
    ((pairs_behind apart).sublist List.filter_sublist).sublist (List.take_sublist _ _)
  rw [Sound, commandsOf]
  constructor
  · rintro ⟨along, -⟩
    obtain ⟨splitAll, mergeAll⟩ := along_append.mp (along_append.mp along).2
    have free := splitsTaken.mp splitAll
    obtain ⟨each, alone⟩ := (merges_run chosen joined (fun p inside => (ready free p inside).1) behind).mp mergeAll
    exact .inr ⟨free, fun p inside => (each p inside).2, alone⟩
  · rintro (stopped | ⟨free, each, alone⟩)
    · exact (paused stopped).elim
    · refine ⟨along_append.mpr ⟨taken, along_append.mpr ⟨splitsTaken.mpr free, ?_⟩⟩, placement_few conditions⟩
      exact (merges_run chosen joined (fun p inside => (ready free p inside).1) behind).mpr
        ⟨fun p inside => ⟨(ready free p inside).2, each p inside⟩, alone⟩

/-- A tablet, split by hand under the name that the controller would choose. -/
def splitByHand : List ControllerCommand :=
  [.createTablet "t" "cell" "home" 0 4096 [Member.voter "n1" "a1"] .localQuorum, .splitTablet "t" 2048 "t-b"]

def byDefault : CellController := ⟨.automatic, .default, .alert⟩

def grown : OrderedMap String TabletLoad := (∅ : OrderedMap String TabletLoad).insert "t" ⟨64 * 1024 ^ 3 + 1, 0, 0, 0, 0⟩

theorem split_name_taken : ¬ ∀ (commands : List ControllerCommand) (controller : CellController)
    (load : OrderedMap String TabletLoad) (conditions : List Condition),
    controller.Sound (Topology.new.run commands) load conditions := by
  intro all
  have listed : (byDefault.decide (Topology.new.run splitByHand) grown []).map Recommendation.command =
      [.splitTablet "t" 1024 "t-b"] := by decide +kernel
  obtain ⟨along, -⟩ := all splitByHand byDefault grown []
  rw [listed] at along
  obtain ⟨⟨generation, accepted⟩, -⟩ := along
  have refused : ((Topology.new.run splitByHand).apply (.splitTablet "t" 1024 "t-b")).1.toOption = none := by
    decide +kernel
  cases refused.symm.trans (congrArg Except.toOption accepted)

end CellController

end TallyOwl.Controller
