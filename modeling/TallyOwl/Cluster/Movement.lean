import TallyOwl.Cluster.Topology
import TallyOwl.Lib.Bytes

/-! Moving a tablet (`movement.rs`). Placement changes last, after the copy is proved: the stages only go
forward, and an arrival that is not intact stops the movement. The digest is a parameter. -/
open List TallyOwl.Lib.OrderedMap

namespace TallyOwl.Moving
open Lib Controller

structure SegmentCopy where
  segmentId : String
  totalBytes : Nat
  /-- Over the whole segment, as the source computed it. -/
  digest : Bytes
  deriving DecidableEq

inductive Stage where
  | planned
  | copyingSegments
  | catchingUp
  | verified
  | published
  | finished
  | stopped
  deriving DecidableEq

inductive Verification where
  | expected
  | proved
  | failed
  deriving DecidableEq

inductive ErrorCode where
  | internal
  | failedPrecondition
  deriving DecidableEq

structure TallyOwlError where
  code : ErrorCode
  message : String
  deriving DecidableEq

structure Movement where
  tablet : String
  awayFrom : String
  onto : Member
  stage : Stage
  /-- Segments the source says exist, and whether the target has proved each. -/
  segments : OrderedMap String Verification
  catchUpTo : Nat
  targetApplied : Nat
  stoppedBecause : Option String

structure Plan where
  tablet : String
  awayFrom : String
  onto : Member
  segments : List SegmentCopy
  catchUpTo : Nat

def plan (p : Plan) : Movement where
  tablet := p.tablet
  awayFrom := p.awayFrom
  onto := p.onto
  stage := .planned
  segments := .ofList (p.segments.map fun s => (s.segmentId, .expected))
  catchUpTo := p.catchUpTo
  targetApplied := 0
  stoppedBecause := none

namespace Movement
variable (hash : Bytes → Bytes) (m : Movement)

def start : Movement :=
  if m.stage = .planned then
    { m with stage := if m.segments.entries = [] then .catchingUp else .copyingSegments }
  else m

def everySegmentProved : Bool := m.segments.values.all (· = .proved)

def provedSegments : Nat := (m.segments.values.filter (· = .proved)).length

def segmentCount : Nat := m.segments.entries.length

def stop (because : String) : Movement := { m with stage := .stopped, stoppedBecause := some because }

def failed (segment : SegmentCopy) (because : String) : Except TallyOwlError Unit × Movement :=
  (.error ⟨.internal, because⟩, { m with segments := m.segments.insert segment.segmentId .failed }.stop because)

/-- Record that one segment arrived. The digest is computed from the bytes that arrived. -/
def segmentArrived (segment : SegmentCopy) (received : Bytes) : Except TallyOwlError Unit × Movement :=
  if hash received ≠ segment.digest then
    m.failed segment (s!"Segment `{segment.segmentId}` did not arrive intact, so the copy was discarded rather than " ++
      s!"installed. The move stopped and `{m.awayFrom}` still owns the data.")
  else if received.length ≠ segment.totalBytes then
    m.failed segment (s!"Segment `{segment.segmentId}` arrived with {received.length} bytes and the source said " ++
      s!"{segment.totalBytes}. The move stopped.")
  else
    let proved := { m with segments := m.segments.insert segment.segmentId .proved }
    if proved.everySegmentProved ∧ proved.stage = .copyingSegments then
      (.ok (), { proved with stage := .catchingUp })
    else (.ok (), proved)

def caughtUpTo (applied : Nat) : Movement :=
  let reported := { m with targetApplied := applied }
  if m.stage = .catchingUp ∧ applied ≥ m.catchUpTo then { reported with stage := .verified } else reported

def publish : Except TallyOwlError (List ControllerCommand) × Movement :=
  match m.stage with
  | .verified =>
      (.ok [.moveReplica m.tablet m.awayFrom m.onto, .setTabletState m.tablet .active], { m with stage := .published })
  | .stopped =>
      (.error ⟨.failedPrecondition,
        m.stoppedBecause.getD "This movement stopped and cannot be published."⟩, m)
  | _ =>
      (.error ⟨.failedPrecondition,
        s!"`{m.tablet}` is not proved on `{m.onto.node}` yet: {m.provedSegments} of {m.segmentCount} segments " ++
          s!"verified, and the target has applied {m.targetApplied} of {m.catchUpTo}. Placement changes only after " ++
          "the copy is proved."⟩, m)

def finish : Except TallyOwlError Unit × Movement :=
  if m.stage ≠ .published then
    (.error ⟨.failedPrecondition, "A movement finishes only after its placement change is published."⟩, m)
  else (.ok (), { m with stage := .finished })

end Movement

/-! Runs. -/

inductive Call where
  | start
  | segmentArrived (segment : SegmentCopy) (received : Bytes)
  | caughtUpTo (applied : Nat)
  | publish
  | finish
  deriving DecidableEq

section
variable (hash : Bytes → Bytes)

def call (m : Movement) : Call → Movement
  | .start => m.start
  | .segmentArrived segment received => (m.segmentArrived hash segment received).2
  | .caughtUpTo applied => m.caughtUpTo applied
  | .publish => m.publish.2
  | .finish => m.finish.2

def after (m : Movement) (calls : List Call) : Movement := calls.foldl (call hash) m

def Intact (segment : SegmentCopy) (received : Bytes) : Prop :=
  hash received = segment.digest ∧ received.length = segment.totalBytes

instance (segment : SegmentCopy) (received : Bytes) : Decidable (Intact hash segment received) :=
  inferInstanceAs (Decidable (_ ∧ _))

def arrivals (id : String) (calls : List Call) : List (SegmentCopy × Bytes) :=
  calls.filterMap fun c =>
    match c with
    | .segmentArrived segment received => if segment.segmentId = id then some (segment, received) else none
    | _ => none

theorem mem_arrivals {id : String} {calls : List Call} {segment : SegmentCopy} {received : Bytes} :
    (segment, received) ∈ arrivals id calls ↔ .segmentArrived segment received ∈ calls ∧ segment.segmentId = id := by
  unfold arrivals
  rw [mem_filterMap]
  constructor
  · rintro ⟨c, inside, same⟩
    cases c with
    | segmentArrived segment' received' =>
      dsimp only at same
      split at same
      · rename_i named
        cases same
        exact ⟨inside, named⟩
      · cases same
    | start | caughtUpTo _ | publish | finish => cases same
  · rintro ⟨inside, named⟩
    exact ⟨_, inside, if_pos named⟩

/-- The target reported a position at or past the mark when every planned segment had arrived. -/
def Reported (p : Plan) (calls : List Call) : Prop :=
  ∃ before applied later, calls = before ++ .caughtUpTo applied :: later ∧ p.catchUpTo ≤ applied ∧
    ∀ segment ∈ p.segments, arrivals segment.segmentId before ≠ []

structure Tracks (p : Plan) (calls : List Call) (m : Movement) : Prop where
  catchUpTo : m.catchUpTo = p.catchUpTo
  intact : m.stage ≠ .stopped → ∀ segment received, .segmentArrived segment received ∈ calls →
    Intact hash segment received
  arrived : ∀ id, m.segments.get? id = some .proved → arrivals id calls ≠ []
  listed : ∀ segment ∈ p.segments, m.segments.get? segment.segmentId ≠ none
  copied : m.stage = .catchingUp → ∀ segment ∈ p.segments, arrivals segment.segmentId calls ≠ []
  reported : m.stage = .verified → Reported p calls

variable {hash} {p : Plan} {calls : List Call} {m : Movement}

theorem arrivals_append (id : String) (calls more : List Call) :
    arrivals id (calls ++ more) = arrivals id calls ++ arrivals id more := filterMap_append

theorem arrivals_grow {id : String} (some : arrivals id calls ≠ []) (c : Call) : arrivals id (calls ++ [c]) ≠ [] := by
  rw [arrivals_append]
  exact append_ne_nil_of_left_ne_nil some _

theorem Reported.grow (reported : Reported p calls) (c : Call) : Reported p (calls ++ [c]) := by
  obtain ⟨before, applied, later, rfl, reached, each⟩ := reported
  exact ⟨before, applied, later ++ [c], by simp, reached, each⟩

theorem Tracks.aside {c : Call} {n : Movement} (tracks : Tracks hash p calls m)
    (other : ∀ segment received, c ≠ .segmentArrived segment received) (segments : n.segments = m.segments)
    (mark : n.catchUpTo = m.catchUpTo) (stopped : m.stage = .stopped → n.stage = .stopped)
    (copied : n.stage = .catchingUp → m.stage = .catchingUp ∨ p.segments = [])
    (reported : n.stage = .verified → m.stage = .verified ∨ Reported p (calls ++ [c])) :
    Tracks hash p (calls ++ [c]) n := by
  refine ⟨mark.trans tracks.catchUpTo, fun live segment received inside => ?_, fun id proved => ?_, ?_,
    fun stage segment planned => ?_, fun stage => ?_⟩
  · rcases mem_append.mp inside with before | here
    · exact tracks.intact (fun is => live (stopped is)) segment received before
    · exact (other segment received (mem_singleton.mp here).symm).elim
  · rw [segments] at proved
    exact arrivals_grow (tracks.arrived id proved) c
  · rw [segments]
    exact tracks.listed
  · rcases copied stage with was | none
    · exact arrivals_grow (tracks.copied was segment planned) c
    · rw [none] at planned
      cases planned
  · rcases reported stage with was | now
    · exact (tracks.reported was).grow c
    · exact now

theorem tracks_plan (p : Plan) : Tracks hash p [] (plan p) := by
  have listed : ∀ e ∈ (plan p).segments.entries, e.2 = .expected := by
    intro e inside
    rcases mem_foldl_insert inside with old | ⟨entry, there, rfl⟩
    · cases old
    · obtain ⟨segment, -, rfl⟩ := mem_map.mp there
      rfl
  refine ⟨rfl, fun _ _ _ inside => (by cases inside), fun id proved => ?_, fun segment planned absent => ?_,
    (by intro stage; cases stage), (by intro stage; cases stage)⟩
  · cases listed _ (get?_eq_some.mp proved)
  · have there : (segment.segmentId, Verification.expected) ∈ (plan p).segments.entries := by
      refine @mem_foldl_insert_new _ _ _ _ Prod.fst Prod.snd _ _ (segment.segmentId, Verification.expected)
        (mem_map.mpr ⟨segment, planned, rfl⟩) fun e inside _ => ?_
      obtain ⟨other, -, rfl⟩ := mem_map.mp inside
      rfl
    rw [get?_eq_some.mpr there] at absent
    cases absent

variable (tracks : Tracks hash p calls m)
include tracks

theorem Tracks.start : Tracks hash p (calls ++ [.start]) m.start := by
  unfold Movement.start
  split
  · rename_i planned
    refine tracks.aside (fun _ _ same => (by cases same)) rfl rfl (fun stage => ?_) (fun stage => ?_) (fun stage => ?_)
    · rw [planned] at stage
      cases stage
    · right
      split at stage
      · rename_i empty
        refine eq_nil_iff_forall_not_mem.mpr fun segment there => ?_
        have listed := tracks.listed segment there
        rw [OrderedMap.get?, empty] at listed
        exact listed rfl
      · cases stage
    · split at stage <;> cases stage
  · exact tracks.aside (fun _ _ same => (by cases same)) rfl rfl id .inl .inl

theorem Tracks.failed (segment : SegmentCopy) (received : Bytes) (because : String) :
    Tracks hash p (calls ++ [.segmentArrived segment received]) (m.failed segment because).2 := by
  refine ⟨tracks.catchUpTo, fun live => (live rfl).elim, fun id proved => ?_, fun other planned => ?_,
    (by intro stage; cases stage), (by intro stage; cases stage)⟩
  · change (m.segments.insert segment.segmentId .failed).get? id = _ at proved
    rw [get?_insert] at proved
    split at proved
    · cases proved
    · exact arrivals_grow (tracks.arrived id proved) _
  · change (m.segments.insert segment.segmentId .failed).get? other.segmentId ≠ none
    rw [get?_insert]
    split
    · simp
    · exact tracks.listed other planned

theorem Tracks.proved {segment : SegmentCopy} {received : Bytes}
    (intact : Intact hash segment received) : Tracks hash p (calls ++ [.segmentArrived segment received])
      { m with segments := m.segments.insert segment.segmentId .proved } := by
  refine ⟨tracks.catchUpTo, fun live other bytes inside => ?_, fun id proved => ?_, fun other planned => ?_,
    fun stage other planned => arrivals_grow (tracks.copied stage other planned) _,
    fun stage => (tracks.reported stage).grow _⟩
  · rcases mem_append.mp inside with before | here
    · exact tracks.intact live other bytes before
    · obtain ⟨rfl, rfl⟩ := Call.segmentArrived.inj (mem_singleton.mp here)
      exact intact
  · rw [get?_insert] at proved
    split at proved
    · rename_i own
      exact ne_nil_of_mem (mem_arrivals.mpr ⟨mem_append_right _ mem_cons_self, own.symm⟩)
    · exact arrivals_grow (tracks.arrived id proved) _
  · rw [get?_insert]
    split
    · simp
    · exact tracks.listed other planned

theorem Tracks.whole (every : m.everySegmentProved = true) :
    ∀ segment ∈ p.segments, arrivals segment.segmentId calls ≠ [] := by
  intro segment planned
  obtain ⟨v, held⟩ := Option.ne_none_iff_exists'.mp (tracks.listed segment planned)
  have proved := all_eq_true.mp every v (mem_values.mpr ⟨_, get?_eq_some.mp held⟩)
  rw [of_decide_eq_true proved] at held
  exact tracks.arrived _ held

theorem Tracks.segmentArrived (segment : SegmentCopy) (received : Bytes) :
    Tracks hash p (calls ++ [.segmentArrived segment received]) (m.segmentArrived hash segment received).2 := by
  unfold Movement.segmentArrived
  split
  · exact tracks.failed segment received _
  · split
    · exact tracks.failed segment received _
    · rename_i digest length
      have intact : Intact hash segment received := ⟨not_not.mp digest, not_not.mp length⟩
      have proved := tracks.proved intact
      dsimp only
      split
      · rename_i both
        exact ⟨proved.catchUpTo, fun _ => proved.intact (fun is => (by rw [both.2] at is; cases is)), proved.arrived,
          proved.listed, fun _ => proved.whole both.1, (by intro stage; cases stage)⟩
      · exact proved

theorem Tracks.caughtUpTo (applied : Nat) :
    Tracks hash p (calls ++ [.caughtUpTo applied]) (m.caughtUpTo applied) := by
  unfold Movement.caughtUpTo
  dsimp only
  split
  · rename_i reached
    refine tracks.aside (fun _ _ same => (by cases same)) rfl rfl (fun stage => ?_) (by intro stage; cases stage)
      fun _ => .inr ⟨calls, applied, [], rfl, ?_, tracks.copied reached.1⟩
    · rw [reached.1] at stage
      cases stage
    · rw [← tracks.catchUpTo]
      exact reached.2
  · exact tracks.aside (fun _ _ same => (by cases same)) rfl rfl id .inl .inl

theorem Tracks.publish : Tracks hash p (calls ++ [.publish]) m.publish.2 := by
  have same : Tracks hash p (calls ++ [.publish]) m :=
    tracks.aside (fun _ _ same => (by cases same)) rfl rfl id .inl .inl
  unfold Movement.publish
  split
  · rename_i verified
    refine tracks.aside (fun _ _ same => (by cases same)) rfl rfl (fun stage => ?_) (by intro stage; cases stage)
      (by intro stage; cases stage)
    rw [verified] at stage
    cases stage
  · exact same
  · exact same

theorem Tracks.finish : Tracks hash p (calls ++ [.finish]) m.finish.2 := by
  unfold Movement.finish
  split
  · exact tracks.aside (fun _ _ same => (by cases same)) rfl rfl id .inl .inl
  · rename_i published
    refine tracks.aside (fun _ _ same => (by cases same)) rfl rfl (fun stage => ?_) (by intro stage; cases stage)
      (by intro stage; cases stage)
    rw [not_not.mp published] at stage
    cases stage

theorem Tracks.call (c : Call) : Tracks hash p (calls ++ [c]) (call hash m c) := by
  cases c with
  | start => exact tracks.start
  | segmentArrived segment received => exact tracks.segmentArrived segment received
  | caughtUpTo applied => exact tracks.caughtUpTo applied
  | publish => exact tracks.publish
  | finish => exact tracks.finish

theorem Tracks.after (more : List Call) :
    Tracks hash p (calls ++ more) (after hash m more) := by
  induction more generalizing calls m with
  | nil =>
    rw [append_nil]
    exact tracks
  | cons c more ih =>
    have rest := ih (tracks.call c)
    rwa [append_assoc] at rest

omit tracks

/-! What a publication says. -/

/-- The stages that a movement does not leave for one that can be published. -/
def Past (stage : Stage) : Prop := stage = .published ∨ stage = .finished ∨ stage = .stopped

theorem past_call (past : Past m.stage) (c : Call) : Past (call hash m c).stage := by
  cases c with
  | start =>
    show Past m.start.stage
    unfold Movement.start
    split
    · rename_i planned
      rw [planned] at past
      simp [Past] at past
    · exact past
  | segmentArrived segment received =>
    show Past (m.segmentArrived hash segment received).2.stage
    unfold Movement.segmentArrived
    split
    · exact .inr (.inr rfl)
    · split
      · exact .inr (.inr rfl)
      · dsimp only
        split
        · rename_i both
          rw [both.2] at past
          simp [Past] at past
        · exact past
  | caughtUpTo applied =>
    show Past (m.caughtUpTo applied).stage
    unfold Movement.caughtUpTo
    dsimp only
    split
    · rename_i reached
      rw [reached.1] at past
      simp [Past] at past
    · exact past
  | publish =>
    show Past m.publish.2.stage
    unfold Movement.publish
    split
    · exact .inl rfl
    · exact past
    · exact past
  | finish =>
    show Past m.finish.2.stage
    unfold Movement.finish
    split
    · exact past
    · exact .inr (.inl rfl)

theorem past_after (past : Past m.stage) (calls : List Call) : Past (after hash m calls).stage := by
  induction calls generalizing m with
  | nil => exact past
  | cons c calls ih => exact ih (past_call past c)

theorem verified_of_publish {commands : List ControllerCommand} (published : m.publish.1 = .ok commands) :
    m.stage = .verified ∧ commands = [.moveReplica m.tablet m.awayFrom m.onto, .setTabletState m.tablet .active] ∧
      m.publish.2.stage = .published := by
  unfold Movement.publish at published ⊢
  split at published
  · rename_i verified
    rw [verified]
    exact ⟨rfl, (Except.ok.inj published).symm, rfl⟩
  · cases published
  · cases published

theorem refused_of_past (past : Past m.stage) : ∃ e, m.publish.1 = .error e := by
  unfold Movement.publish
  split
  · rename_i verified
    rw [verified] at past
    simp [Past] at past
  · exact ⟨_, rfl⟩
  · exact ⟨_, rfl⟩

end

/-! A segment that arrives again behind the report. -/

def keepBytes (bytes : Bytes) : Bytes := bytes

def oneSegment : SegmentCopy := ⟨"a", 1, [7]⟩

def smallPlan : Plan := ⟨"t", "n1", .voter "n2" "h2", [oneSegment], 5⟩

def arrivesAgain : List Call :=
  [.start, .segmentArrived oneSegment [7], .caughtUpTo 5, .segmentArrived oneSegment [7]]

end TallyOwl.Moving
