import TallyOwl.Cluster.Topology
import TallyOwl.Store.Segmented.Read
import Mathlib.Data.UInt
import Mathlib.Algebra.Order.BigOperators.Group.List

/-! A read of every tablet (`query.rs`, `fanout.rs`). Each tablet of the plan is asked, a
tablet that does not answer becomes a part that names what is missing, and the parts are
merged. A 64-bit counter wraps, as it does in a release build. -/
namespace TallyOwl.FanOut
open Lib Controller List OrderedMap
open Segmented (TimeBasis)

inductive ErrorCode where
  | invalidArgument | unauthenticated | permissionDenied | notFound | alreadyExists
  | resourceExhausted | failedPrecondition | unavailable | schemaUnsupported | budgetExceeded
  | incompleteResult | internal
  deriving DecidableEq

structure TallyOwlError where
  code : ErrorCode
  message : String
  deriving DecidableEq

inductive Consistency where
  | committed
  | boundedStale (maxStalenessMs : Int)
  deriving DecidableEq

inductive PartialKind where
  | count
  | trend (bucketMs : Int)
  | rows (maxRows : Nat)
  | lookup (column : String) (value : Bytes)
  | aggregate (plan : Bytes)
  deriving DecidableEq

def PartialKind.movesRows : PartialKind → Bool
  | .rows _ | .lookup _ _ => true
  | _ => false

def PartialKind.asStr : PartialKind → String
  | .count => "count"
  | .trend _ => "trend"
  | .rows _ => "rows"
  | .lookup _ _ => "lookup"
  | .aggregate _ => "aggregate"

structure Plan where
  projectId : Id
  rangeStart : Int
  rangeEnd : Int
  basis : TimeBasis
  kind : PartialKind
  eventName : Option String
  consistency : Consistency
  requireWatermark : Nat
  allowPartial : Bool
  tablets : List String
  generation : Nat
  deriving DecidableEq

structure MissingRange where
  tablet : String
  rangeStart : Int
  rangeEnd : Int
  deriving DecidableEq

structure Part where
  tablet : String
  commitWatermark : Fin (2 ^ 64)
  freshnessMs : Int
  complete : Bool
  missing : List MissingRange
  count : UInt64
  buckets : OrderedMap Int UInt64
  rows : List EventRow
  aggregateState : Option Bytes
  scannedSegments : UInt64
  scannedBytes : UInt64
  degraded : Bool

def Part.forTablet (tablet : String) : Part :=
  ⟨tablet, 0, 0, true, [], 0, ∅, [], none, 0, 0, false⟩

def Part.unavailable (tablet : String) (rangeStart rangeEnd : Int) : Part :=
  { Part.forTablet tablet with complete := false, missing := [⟨tablet, rangeStart, rangeEnd⟩] }

structure Merged where
  count : UInt64
  buckets : OrderedMap Int UInt64
  rows : List EventRow
  aggregateStates : List Bytes
  commitWatermark : Fin (2 ^ 64)
  freshnessMs : Int
  complete : Bool
  missing : List MissingRange
  scannedSegments : UInt64
  scannedBytes : UInt64
  degraded : Bool
  warnings : List String

def Merged.start : Merged :=
  ⟨0, ∅, [], [], Fin.last _, 0, true, [], 0, 0, false, []⟩

def overFanOut (tablets maxFanOut : Nat) : TallyOwlError :=
  ⟨.budgetExceeded, s!"This query needs {tablets} tablets and the fan-out limit is {maxFanOut}. Narrow the time range, or raise `query.maxFanOut` if this installation can carry the wider query."⟩

def plan (topology : Topology) (projectId : Id) (rangeStart rangeEnd : Int) (basis : TimeBasis)
    (kind : PartialKind) (eventName : Option String) (consistency : Consistency) (allowPartial : Bool)
    (maxFanOut : Nat) : Except TallyOwlError Plan :=
  let tablets := topology.readableTablets.map Tablet.name
  if tablets.length > maxFanOut then .error (overFanOut tablets.length maxFanOut)
  else .ok ⟨projectId, rangeStart, rangeEnd, basis, kind, eventName, consistency, 0, allowPartial,
    tablets, topology.generation⟩

/-! The merge. -/

def addBuckets (buckets : OrderedMap Int UInt64) (part : Part) : OrderedMap Int UInt64 :=
  part.buckets.entries.foldl (fun held b => held.insert b.1 ((held.get? b.1).getD 0 + b.2)) buckets

def partWarnings (plan : Plan) (part : Part) : List String :=
  (if plan.kind.movesRows = false ∧ part.rows ≠ [] then
    [s!"`{part.tablet}` sent rows for a `{plan.kind.asStr}`, which does not move rows. They were not used."]
  else []) ++
  if part.degraded then
    [s!"`{part.tablet}` holds a range that unsafe recovery marked degraded. An acknowledged write may be missing from this answer, and no component can say which."]
  else []

def absorb (plan : Plan) (merged : Merged) (part : Part) : Merged where
  complete := merged.complete && part.complete
  degraded := merged.degraded || part.degraded
  count := merged.count + part.count
  scannedSegments := merged.scannedSegments + part.scannedSegments
  scannedBytes := merged.scannedBytes + part.scannedBytes
  commitWatermark := min merged.commitWatermark part.commitWatermark
  freshnessMs := max merged.freshnessMs part.freshnessMs
  missing := merged.missing ++ part.missing
  buckets := addBuckets merged.buckets part
  rows := if plan.kind.movesRows then merged.rows ++ part.rows else merged.rows
  aggregateStates := merged.aggregateStates ++ part.aggregateState.toList
  warnings := merged.warnings ++ partWarnings plan part

def unanswered (plan : Plan) (parts : List Part) : List String :=
  plan.tablets.filter fun tablet => tablet ∉ parts.map Part.tablet

def incompleteResult (missing : List MissingRange) : TallyOwlError :=
  let names := missing.map MissingRange.tablet
  let joined := String.intercalate ", " names
  let which := if names.length = 1 then "one tablet" else "some tablets"
  ⟨.incompleteResult, s!"This answer would be missing data from {which} and would therefore be smaller than the truth. Ask again with partial results allowed if a smaller answer is useful, and the result will name what is missing. Missing: {joined}."⟩

def partialWarning (missing tablets : Nat) : String :=
  s!"This is a partial answer. {missing} of {tablets} tablets did not answer, so every number here is at most the truth and never more."

def PartialKind.bound : PartialKind → List EventRow → List EventRow
  | .rows maxRows, all => all.take maxRows
  | _, all => all

/-- Every part in, and every tablet that no part is of named as missing. -/
def gather (plan : Plan) (parts : List Part) : Merged :=
  let merged := parts.foldl (absorb plan) .start
  let absent := unanswered plan parts
  { merged with
    commitWatermark := if parts = [] then 0 else merged.commitWatermark
    complete := merged.complete && absent.isEmpty
    missing := merged.missing ++ absent.map fun tablet : String =>
      MissingRange.mk tablet plan.rangeStart plan.rangeEnd }

def merge (plan : Plan) (parts : List Part) : Except TallyOwlError Merged :=
  let merged := gather plan parts
  if merged.complete then .ok { merged with rows := plan.kind.bound merged.rows }
  else if plan.allowPartial then
    .ok { merged with
      warnings := merged.warnings ++ [partialWarning merged.missing.length plan.tablets.length]
      rows := plan.kind.bound merged.rows }
  else .error (incompleteResult merged.missing)

/-! The fan-out. -/

/-- What a read needs of the rest of the node: what it holds itself, and what a peer at an
address answers. -/
structure Reads where
  holds : String → Bool
  localPart : Plan → String → Except TallyOwlError Part
  addressesOf : String → Except TallyOwlError (List String)
  call : Plan → (address tablet : String) → Except TallyOwlError Part

def noReplica (tablet : String) : TallyOwlError :=
  ⟨.unavailable, s!"`{tablet}` has no replica to read from."⟩

/-- Every replica in turn, until one answers or refuses for all of them. -/
def askEach (tablet : String) (call : String → Except TallyOwlError Part) :
    List String → (last : Option TallyOwlError) → Except TallyOwlError Part
  | [], last => .error (last.getD (noReplica tablet))
  | address :: rest, _ =>
      match call address with
      | .ok part => .ok part
      | .error e =>
          if e.code = .unavailable ∨ e.code = .notFound then askEach tablet call rest (some e)
          else .error e

def Reads.ask (reads : Reads) (plan : Plan) (tablet : String) : Except TallyOwlError Part :=
  if reads.holds tablet then reads.localPart plan tablet
  else do
    let addresses ← reads.addressesOf tablet
    askEach tablet (reads.call plan · tablet) addresses none

def Reads.part (reads : Reads) (plan : Plan) (tablet : String) : Part :=
  match reads.ask plan tablet with
  | .ok part => part
  | .error _ => .unavailable tablet plan.rangeStart plan.rangeEnd

def Reads.parts (reads : Reads) (plan : Plan) : List Part := plan.tablets.map (reads.part plan)

/-- What the read could not reach, in the words an operator needs. -/
def Reads.missed (reads : Reads) (plan : Plan) : List String :=
  plan.tablets.filterMap fun tablet =>
    match reads.ask plan tablet with
    | .ok _ => none
    | .error e => some s!"`{tablet}` did not answer: {e.message}"

def Reads.run (reads : Reads) (plan : Plan) : Except TallyOwlError Merged :=
  merge plan (reads.parts plan)

/-- The kind of plan that `scan` makes: the bound of one tablet for each that may be asked. -/
def scanKind (maxRowsForEachTablet maxFanOut : Nat) : PartialKind :=
  .rows (maxRowsForEachTablet * maxFanOut % 2 ^ 64)

/-! What an answer marked complete is. -/

/-- Every plan tablet answered completely, and some answer has its name. -/
structure Answered (reads : Reads) (plan : Plan) : Prop where
  complete : ∀ tablet ∈ plan.tablets, ∃ part, reads.ask plan tablet = .ok part ∧ part.complete = true
  named : ∀ tablet ∈ plan.tablets, ∃ asked ∈ plan.tablets, ∃ part,
    reads.ask plan asked = .ok part ∧ part.tablet = tablet

def brought (plan : Plan) (parts : List Part) : List EventRow :=
  if plan.kind.movesRows then parts.flatMap Part.rows else []

def bucketTotal (parts : List Part) (start : Int) : Option UInt64 :=
  if ∃ part ∈ parts, (part.buckets.get? start).isSome then
    some (parts.map fun part => (part.buckets.get? start).getD 0).sum
  else none

/-- The answer is the sums, the rows up to the plan's bound, and the smallest watermark. -/
structure Whole (plan : Plan) (parts : List Part) (merged : Merged) : Prop where
  count : merged.count = (parts.map Part.count).sum
  buckets : ∀ start, merged.buckets.get? start = bucketTotal parts start
  rows : merged.rows = plan.kind.bound (brought plan parts)
  least : ∀ part ∈ parts, merged.commitWatermark ≤ part.commitWatermark
  attained : parts ≠ [] → ∃ part ∈ parts, part.commitWatermark = merged.commitWatermark

structure SameUpToOrder (first second : Merged) : Prop where
  count : first.count = second.count
  buckets : first.buckets = second.buckets
  rows : first.rows.Perm second.rows
  aggregateStates : first.aggregateStates.Perm second.aggregateStates
  commitWatermark : first.commitWatermark = second.commitWatermark
  freshnessMs : first.freshnessMs = second.freshnessMs
  complete : first.complete = second.complete
  missing : first.missing.Perm second.missing
  scannedSegments : first.scannedSegments = second.scannedSegments
  scannedBytes : first.scannedBytes = second.scannedBytes
  degraded : first.degraded = second.degraded
  warnings : first.warnings.Perm second.warnings

section
variable {held : OrderedMap Int UInt64} {part : Part} {parts : List Part} {start : Int}

theorem get?_addBuckets : (addBuckets held part).get? start =
    (part.buckets.get? start).elim (held.get? start) fun count => some ((held.get? start).getD 0 + count) := by
  have folded : ∀ (entries : List (Int × UInt64)) (held : OrderedMap Int UInt64), (entries.map Prod.fst).Nodup →
      (entries.foldl (fun held b => held.insert b.1 ((held.get? b.1).getD 0 + b.2)) held).get? start =
        ((entries.find? (·.1 = start)).map Prod.snd).elim (held.get? start)
          fun count => some ((held.get? start).getD 0 + count) := by
    intro entries
    induction entries with
    | nil => intro held _; rfl
    | cons b rest ih =>
      intro held distinct
      obtain ⟨fresh, later⟩ := nodup_cons.mp distinct
      rw [foldl_cons, ih _ later, get?_insert]
      by_cases here : b.1 = start
      · have none : rest.find? (fun x => decide (x.1 = start)) = none := by
          refine find?_eq_none.mpr fun x inside same => fresh ?_
          rw [here, ← of_decide_eq_true same]
          exact mem_map_of_mem inside
        simp [here, none]
      · have other : ¬ start = b.1 := fun same => here same.symm
        simp [here, other]
  exact folded part.buckets.entries held part.buckets.nodup_keys

theorem get?_foldl_addBuckets (parts : List Part) (held : OrderedMap Int UInt64) :
    (parts.foldl addBuckets held).get? start =
      if (held.get? start).isSome ∨ ∃ part ∈ parts, (part.buckets.get? start).isSome then
        some ((held.get? start).getD 0 + (parts.map fun part => (part.buckets.get? start).getD 0).sum) else none := by
  induction parts generalizing held with
  | nil => cases found : held.get? start <;> simp [found]
  | cons part rest ih =>
    rw [foldl_cons, ih, get?_addBuckets]
    cases here : part.buckets.get? start with
    | none => exact if_congr (by simp [here]) (by simp [here]) rfl
    | some count => simp [here, add_assoc]

theorem get?_buckets : (parts.foldl addBuckets ∅).get? start = bucketTotal parts start := by
  have none : (∅ : OrderedMap Int UInt64).get? start = none := rfl
  rw [get?_foldl_addBuckets, none, bucketTotal]
  simp

theorem bucketTotal_perm {others : List Part} (perm : parts.Perm others) :
    bucketTotal parts start = bucketTotal others start := by
  have some : (∃ part ∈ parts, (part.buckets.get? start).isSome) ↔
      ∃ part ∈ others, (part.buckets.get? start).isSome :=
    exists_congr fun part => and_congr_left fun _ => perm.mem_iff
  rw [bucketTotal, bucketTotal, (perm.map _).sum_eq]
  simp only [some]

end

section
variable {plan : Plan} {parts others : List Part}

theorem foldl_absorb (plan : Plan) (parts : List Part) (m : Merged) :
    parts.foldl (absorb plan) m =
      { complete := m.complete && parts.all Part.complete
        degraded := m.degraded || parts.any Part.degraded
        count := m.count + (parts.map Part.count).sum
        scannedSegments := m.scannedSegments + (parts.map Part.scannedSegments).sum
        scannedBytes := m.scannedBytes + (parts.map Part.scannedBytes).sum
        commitWatermark := (parts.map Part.commitWatermark).foldl min m.commitWatermark
        freshnessMs := (parts.map Part.freshnessMs).foldl max m.freshnessMs
        missing := m.missing ++ parts.flatMap Part.missing
        buckets := parts.foldl addBuckets m.buckets
        rows := m.rows ++ brought plan parts
        aggregateStates := m.aggregateStates ++ parts.flatMap fun part => part.aggregateState.toList
        warnings := m.warnings ++ parts.flatMap (partWarnings plan) } := by
  induction parts generalizing m with
  | nil => simp [brought]
  | cons part rest ih =>
    rw [foldl_cons, ih]
    cases moves : plan.kind.movesRows <;>
      simp [absorb, brought, moves, Bool.and_assoc, Bool.or_assoc, add_assoc, append_assoc]

theorem brought_perm (perm : parts.Perm others) : (brought plan parts).Perm (brought plan others) := by
  unfold brought
  split
  · exact perm.flatMap_right _
  · rfl

theorem foldl_min_le (values : List (Fin (2 ^ 64))) (start : Fin (2 ^ 64)) :
    values.foldl min start ≤ start ∧ ∀ value ∈ values, values.foldl min start ≤ value := by
  induction values generalizing start with
  | nil => simp
  | cons value rest ih =>
    obtain ⟨low, each⟩ := ih (min start value)
    refine ⟨low.trans (min_le_left _ _), fun other inside => ?_⟩
    rcases mem_cons.mp inside with rfl | later
    · exact low.trans (min_le_right _ _)
    · exact each other later

theorem foldl_min_mem (values : List (Fin (2 ^ 64))) (start : Fin (2 ^ 64)) :
    values.foldl min start = start ∨ values.foldl min start ∈ values := by
  induction values generalizing start with
  | nil => exact .inl rfl
  | cons value rest ih =>
    rcases ih (min start value) with first | later
    · rw [foldl_cons, first]
      rcases min_choice start value with same | same
      · exact .inl same
      · rw [same]
        exact .inr mem_cons_self
    · exact .inr (mem_cons_of_mem _ later)

def NoneMissing (plan : Plan) (parts : List Part) : Prop :=
  (∀ part ∈ parts, part.complete = true) ∧ ∀ tablet ∈ plan.tablets, ∃ part ∈ parts, part.tablet = tablet

theorem unanswered_eq_nil : unanswered plan parts = [] ↔
    ∀ tablet ∈ plan.tablets, ∃ part ∈ parts, part.tablet = tablet := by
  simp only [unanswered, filter_eq_nil_iff, decide_eq_true_eq, not_not, mem_map]

def whole (plan : Plan) (parts : List Part) : Merged :=
  { count := (parts.map Part.count).sum
    buckets := parts.foldl addBuckets ∅
    rows := plan.kind.bound (brought plan parts)
    aggregateStates := parts.flatMap fun part => part.aggregateState.toList
    commitWatermark := if parts = [] then 0 else (parts.map Part.commitWatermark).foldl min (Fin.last _)
    freshnessMs := (parts.map Part.freshnessMs).foldl max 0
    complete := true
    missing := parts.flatMap Part.missing
    scannedSegments := (parts.map Part.scannedSegments).sum
    scannedBytes := (parts.map Part.scannedBytes).sum
    degraded := parts.any Part.degraded
    warnings := parts.flatMap (partWarnings plan) }

theorem gather_complete : (gather plan parts).complete = true ↔ NoneMissing plan parts := by
  simp only [gather, foldl_absorb, Merged.start, Bool.true_and, Bool.and_eq_true, all_eq_true,
    List.isEmpty_iff, unanswered_eq_nil, NoneMissing]

theorem merge_complete_iff : (∃ merged, merge plan parts = .ok merged ∧ merged.complete = true) ↔
    NoneMissing plan parts := by
  rw [← gather_complete]
  constructor
  · rintro ⟨merged, ran, complete⟩
    by_contra short
    simp only [merge, short, if_false] at ran
    split at ran
    · cases ran
      exact short complete
    · cases ran
  · intro complete
    exact ⟨_, if_pos complete, complete⟩

theorem merge_whole (none : NoneMissing plan parts) : merge plan parts = .ok (whole plan parts) := by
  have complete := gather_complete.mpr none
  have absent := unanswered_eq_nil.mpr none.2
  have same : { gather plan parts with rows := plan.kind.bound (gather plan parts).rows } = whole plan parts := by
    rw [whole, ← complete]
    simp only [gather, foldl_absorb, absent, Merged.start]
    simp
  rw [merge, if_pos complete, same]

theorem NoneMissing.perm (none : NoneMissing plan parts) (perm : parts.Perm others) : NoneMissing plan others := by
  refine ⟨fun part inside => none.1 part (perm.mem_iff.mpr inside), fun tablet asked => ?_⟩
  obtain ⟨part, inside, name⟩ := none.2 tablet asked
  exact ⟨part, perm.mem_iff.mp inside, name⟩

theorem whole_whole (plan : Plan) (parts : List Part) : Whole plan parts (whole plan parts) := by
  have low := foldl_min_le (parts.map Part.commitWatermark) (Fin.last _)
  refine ⟨rfl, fun start => get?_buckets, rfl, fun part inside => ?_, fun some => ?_⟩
  · have full : parts ≠ [] := ne_nil_of_mem inside
    simp only [whole, full, if_false]
    exact low.2 _ (mem_map_of_mem inside)
  · simp only [whole, some, if_false]
    obtain ⟨part, inside⟩ := exists_mem_of_ne_nil _ some
    rcases foldl_min_mem (parts.map Part.commitWatermark) (Fin.last _) with top | mem
    · -- No part is below the largest number, so the first is at it.
      refine ⟨part, inside, le_antisymm ?_ (low.2 _ (mem_map_of_mem inside))⟩
      rw [top]
      exact Fin.le_last _
    · obtain ⟨least, there, same⟩ := mem_map.mp mem
      exact ⟨least, there, same⟩

def Uncut (plan : Plan) (parts : List Part) : Prop :=
  plan.kind.bound (brought plan parts) = brought plan parts

theorem Uncut.perm (uncut : Uncut plan parts) (perm : parts.Perm others) : Uncut plan others := by
  unfold Uncut at *
  cases kind : plan.kind with
  | rows maxRows =>
    simp only [kind, PartialKind.bound, take_eq_self_iff] at uncut ⊢
    rwa [← (brought_perm perm).length_eq]
  | _ => rfl

theorem whole_perm (perm : parts.Perm others) (uncut : Uncut plan parts) :
    SameUpToOrder (whole plan parts) (whole plan others) where
  count := (perm.map _).sum_eq
  buckets := ext_of_get? fun start => by
    rw [whole, whole, get?_buckets, get?_buckets, bucketTotal_perm perm]
  rows := by
    show (plan.kind.bound (brought plan parts)).Perm (plan.kind.bound (brought plan others))
    rw [uncut, uncut.perm perm]
    exact brought_perm perm
  aggregateStates := perm.flatMap_right _
  commitWatermark := by
    have same : parts = [] ↔ others = [] := by rw [← length_eq_zero_iff, perm.length_eq, length_eq_zero_iff]
    simp only [whole, same, (perm.map Part.commitWatermark).foldl_eq]
  freshnessMs := (perm.map Part.freshnessMs).foldl_eq _
  complete := rfl
  missing := perm.flatMap_right _
  scannedSegments := (perm.map _).sum_eq
  scannedBytes := (perm.map _).sum_eq
  degraded := perm.any_eq
  warnings := perm.flatMap_right _

end

section
variable {reads : Reads} {plan : Plan}

theorem answered_iff : Answered reads plan ↔ NoneMissing plan (reads.parts plan) := by
  have shown : ∀ tablet, (∃ part, reads.ask plan tablet = .ok part ∧ part.complete = true) ↔
      (reads.part plan tablet).complete = true := by
    intro tablet
    unfold Reads.part
    split
    · rename_i part asked
      simp [asked]
    · rename_i e asked
      simp [asked, Part.unavailable]
  constructor
  · rintro ⟨complete, named⟩
    refine ⟨fun part inside => ?_, fun tablet asked => ?_⟩
    · obtain ⟨tablet, asked, rfl⟩ := mem_map.mp inside
      exact (shown tablet).mp (complete tablet asked)
    · obtain ⟨other, there, part, answer, name⟩ := named tablet asked
      refine ⟨reads.part plan other, mem_map_of_mem there, ?_⟩
      rw [Reads.part, answer]
      exact name
  · rintro ⟨complete, named⟩
    refine ⟨fun tablet asked => (shown tablet).mpr (complete _ (mem_map_of_mem asked)), fun tablet asked => ?_⟩
    obtain ⟨part, inside, name⟩ := named tablet asked
    obtain ⟨other, there, rfl⟩ := mem_map.mp inside
    obtain ⟨answer, found, whole⟩ := (shown other).mpr (complete _ inside)
    refine ⟨other, there, answer, found, ?_⟩
    rwa [Reads.part, found] at name

theorem uncut_scan {each fanOut : Nat} {parts : List Part} (kind : plan.kind = scanKind each fanOut)
    (small : each * fanOut < 2 ^ 64) (few : parts.length ≤ fanOut)
    (within : ∀ part ∈ parts, part.rows.length ≤ each) : Uncut plan parts := by
  have total : (parts.flatMap Part.rows).length ≤ parts.length * each := by
    rw [length_flatMap]
    refine (sum_le_card_nsmul _ each fun n inside => ?_).trans (by simp)
    obtain ⟨part, there, rfl⟩ := mem_map.mp inside
    exact within part there
  have bound : (brought plan parts).length ≤ each * fanOut := by
    rw [brought, kind]
    calc (parts.flatMap Part.rows).length ≤ parts.length * each := total
      _ ≤ fanOut * each := Nat.mul_le_mul_right each few
      _ = each * fanOut := Nat.mul_comm _ _
  rw [Uncut, kind, scanKind, Nat.mod_eq_of_lt small]
  exact take_of_length_le bound

/-- A fan-out marks its answer complete exactly where every tablet of the plan answered
completely and some answer has each tablet's name, whatever the order of the parts. The
answer is then the sums of the parts, the smallest watermark and the parts' rows up to the
plan's bound, and another order of the parts changes the order of its lists at most. -/
theorem complete_answer_is_whole (reads : Reads) (plan : Plan) : ∀ parts, parts.Perm (reads.parts plan) →
      ((∃ merged, merge plan parts = .ok merged ∧ merged.complete = true) ↔ Answered reads plan) ∧
      (∀ merged, merge plan parts = .ok merged → merged.complete = true → Whole plan parts merged ∧
        ∀ others, others.Perm parts → ∃ again, merge plan others = .ok again ∧
          (Uncut plan parts → SameUpToOrder merged again)) ∧
      ∀ each fanOut, plan.kind = scanKind each fanOut → each * fanOut < 2 ^ 64 →
        plan.tablets.length ≤ fanOut → (∀ part ∈ parts, part.rows.length ≤ each) → Uncut plan parts := by
  intro parts order
  refine ⟨?_, fun merged ran complete => ?_, fun each fanOut kind small few within => ?_⟩
  · rw [merge_complete_iff, answered_iff]
    exact ⟨fun none => none.perm order, fun none => none.perm order.symm⟩
  · have none := merge_complete_iff.mp ⟨merged, ran, complete⟩
    obtain rfl := Except.ok.inj (ran.symm.trans (merge_whole none))
    refine ⟨whole_whole plan parts, fun others perm => ?_⟩
    exact ⟨_, merge_whole (none.perm perm.symm), whole_perm perm.symm⟩
  · refine uncut_scan kind small ?_ within
    rwa [order.length_eq, Reads.parts, List.length_map]

end

def someRow (event : Id) : EventRow := EventRow.new event "event" "opened" 0

def pair (first second : Part) : Reads :=
  ⟨fun _ => true, fun _ tablet => .ok (if tablet = "t1" then first else second), fun _ => .ok [],
    fun _ _ tablet => .error (noReplica tablet)⟩

def pairPlan (kind : PartialKind) : Plan :=
  ⟨0, 0, 10, .occurredAt, kind, none, .committed, 0, true, ["t1", "t2"], 1⟩

/-- Two tablets answer a scan of at most three rows each. -/
theorem complete_answer_is_whole_two :
    ∃ merged, merge (pairPlan (scanKind 3 2))
        [{ Part.forTablet "t2" with count := 2, rows := [someRow 2, someRow 3] },
          { Part.forTablet "t1" with count := 1, rows := [someRow 1] }] = .ok merged ∧
      merged.complete = true ∧ merged.rows = [someRow 2, someRow 3, someRow 1] ∧ merged.count = 3 := by
  set second : Part := { Part.forTablet "t2" with count := 2, rows := [someRow 2, someRow 3] }
  set first : Part := { Part.forTablet "t1" with count := 1, rows := [someRow 1] }
  have holds := complete_answer_is_whole (pair first second) (pairPlan (scanKind 3 2)) [second, first]
    (List.Perm.swap first second [])
  have answered : Answered (pair first second) (pairPlan (scanKind 3 2)) := by
    refine ⟨fun tablet asked => ?_, fun tablet asked => ?_⟩
    · by_cases one : tablet = "t1"
      · exact ⟨first, by simp [Reads.ask, pair, one], rfl⟩
      · exact ⟨second, by simp [Reads.ask, pair, one], rfl⟩
    · refine ⟨tablet, asked, _, rfl, ?_⟩
      simp only [pairPlan, List.mem_cons, List.not_mem_nil, or_false] at asked
      rcases asked with rfl | rfl <;> rfl
  obtain ⟨merged, ran, complete⟩ := holds.1.mpr answered
  obtain ⟨sums, -⟩ := holds.2.1 merged ran complete
  refine ⟨merged, ran, complete, ?_, ?_⟩
  · rw [sums.rows]
    rfl
  · rw [sums.count]
    rfl

/-- Two tablets that answer under each other's names leave the answer complete. A part that
sends a row for a count, and the third of three rows where a plan asks for two, are left out
of a complete answer, and which row that is depends on the order. -/
theorem complete_answer_leaves_rows_out :
    (∃ (reads : Reads) (plan : Plan) (merged : Merged), reads.run plan = .ok merged ∧ merged.complete = true ∧ plan.tablets ≠ [] ∧
      ∀ tablet ∈ plan.tablets, ∀ part, reads.ask plan tablet = .ok part → part.tablet ≠ tablet) ∧
    (∃ (plan : Plan) (parts : List Part) (merged : Merged), merge plan parts = .ok merged ∧ merged.complete = true ∧
      ¬ merged.rows.Perm (parts.flatMap Part.rows)) ∧
    ∃ (plan : Plan) (parts others : List Part) (merged again : Merged), others.Perm parts ∧ merge plan parts = .ok merged ∧
      merged.complete = true ∧ merge plan others = .ok again ∧ ¬ merged.rows.Perm again.rows := by
  refine ⟨⟨pair (.forTablet "t2") (.forTablet "t1"), pairPlan .count, _, rfl, rfl, by decide, ?_⟩,
    ⟨{ pairPlan .count with tablets := ["t1"] }, [{ Part.forTablet "t1" with rows := [someRow 1] }], _, rfl, rfl, ?_⟩,
    ⟨{ pairPlan (.rows 2) with tablets := ["t1", "t2"] },
      [{ Part.forTablet "t1" with rows := [someRow 1, someRow 2] }, { Part.forTablet "t2" with rows := [someRow 3] }],
      [{ Part.forTablet "t2" with rows := [someRow 3] }, { Part.forTablet "t1" with rows := [someRow 1, someRow 2] }],
      _, _, .swap _ _ [], rfl, rfl, rfl, ?_⟩⟩
  · intro tablet asked part answer
    simp only [pairPlan, List.mem_cons, List.not_mem_nil, or_false] at asked
    rcases asked with rfl | rfl <;> obtain rfl := Except.ok.inj answer <;> decide
  · intro perm
    exact absurd perm.length_eq (by decide)
  · intro perm
    have there := (perm.map EventRow.eventId).mem_iff (a := 3)
    revert there
    decide

end TallyOwl.FanOut
