import TallyOwl.Head.Policy
import TallyOwl.Lib.Runs

/-! A project's policy read while it is written (`policy.rs`). A write holds the lock of the documents from its store
to its return. A read looks, compiles and inserts, each under a lock it gives back. -/
namespace TallyOwl.Policy.Racing
open Lib List

/-- How far the `put` is that holds the lock of the documents. -/
inductive Putting where
  | free
  | stored (d : Document) (generation : Option Nat)
  | updated
  | cleared

/-- How far a `for_project` is. What it compiled is kept with the place of the documents it read. -/
inductive Stage where
  | looking
  | missed
  | compiled (c : Compiled) (seen : Nat)
  | gave (c : Compiled)

/-- One call of `for_project`, and how many writes had returned when it began. -/
structure Call where
  projectId : Id
  since : Nat
  stage : Stage

/-- The service, what runs on it, and the documents as each write left them. -/
structure State where
  service : PolicyService
  putting : Putting
  calls : List Call
  history : List Policies
  returned : Nat

inductive Event where
  | begins (projectId : Id)
  | look (i : Nat)
  | compile (i : Nat)
  | insert (i : Nat)
  | store (d : Document) (generation : Option Nat)
  | update
  | clear
  | done

def start (held : Policies) : State := ⟨⟨held, fun _ => none⟩, .free, [], [held], 0⟩

def State.moves (s : State) (i : Nat) (call : Call) (stage : Stage) : State :=
  { s with calls := s.calls.set i { call with stage } }

/-- One step of a read or a write. Compiling waits for the lock, looking and inserting do not. A write that is refused
or not stored changes nothing, so it takes no step. -/
def step (floatText : UInt64 → String) (s : State) : Event → Option State
  | .begins projectId => some { s with calls := s.calls ++ [⟨projectId, s.returned, .looking⟩] }
  | .look i => do
      let call ← s.calls[i]?
      match call.stage with
      | .looking => some (s.moves i call ((s.service.compiled call.projectId).elim .missed .gave))
      | _ => none
  | .compile i => do
      let call ← s.calls[i]?
      match call.stage, s.putting with
      | .missed, .free =>
          some (s.moves i call (.compiled (s.service.compileFor call.projectId) (s.history.length - 1)))
      | _, _ => none
  | .insert i => do
      let call ← s.calls[i]?
      match call.stage with
      | .compiled c _ => some { s.moves i call (.gave c) with service := s.service.remember call.projectId c }
      | _ => none
  | .store d generation =>
      match s.putting, d.check floatText with
      | .free, .ok _ => some { s with putting := .stored d generation }
      | _, _ => none
  | .update =>
      match s.putting with
      | .stored d generation =>
          match s.service.held.put floatText d with
          | .error _ => none
          | .ok put =>
              let held := { put with version := generation.getD put.version }
              some { s with service := { s.service with held }, putting := .updated, history := s.history ++ [held] }
      | _ => none
  | .clear =>
      match s.putting with
      | .updated => some { s with service := { s.service with compiled := fun _ => none }, putting := .cleared }
      | _ => none
  | .done =>
      match s.putting with
      | .cleared => some { s with putting := .free, returned := s.returned + 1 }
      | _ => none

def State.cleared (s : State) : Nat :=
  match s.putting with
  | .cleared => s.returned + 1
  | _ => s.returned

def Call.seen (call : Call) : Option Nat :=
  match call.stage with
  | .compiled _ seen => some seen
  | _ => none

/-- What is inserted was compiled from the documents of the last write that cleared the cache, or of a later one. -/
def Timely (s : State) : Event → Prop
  | .insert i => ∀ seen ∈ (s.calls[i]?).bind Call.seen, s.cleared ≤ seen
  | _ => True

instance (s : State) : (e : Event) → Decidable (Timely s e)
  | .insert i => inferInstanceAs (Decidable (∀ seen ∈ (s.calls[i]?).bind Call.seen, s.cleared ≤ seen))
  | .begins _ | .look _ | .compile _ | .store .. | .update | .clear | .done => .isTrue trivial

/-- The policy is the one compiled from the documents in a place of the history. -/
def CompiledAt (history : List Policies) (projectId : Id) (c : Compiled) (i : Nat) : Prop :=
  ∃ held, history[i]? = some held ∧ c = held.compile "" (hex projectId.bytes) "" ""

/-- Every call that has returned gave the policy as it was after the last write that had returned when the call began,
or after a later one. -/
def InEffect (s : State) : Prop :=
  ∀ call ∈ s.calls, ∀ c, call.stage = .gave c → ∃ i ≥ call.since, CompiledAt s.history call.projectId c i

section
variable {floatText : UInt64 → String} {s t : State} {call : Call} {c : Compiled} {projectId : Id} {i : Nat}

def Call.Agrees (call : Call) (history : List Policies) : Prop :=
  match call.stage with
  | .looking | .missed => True
  | .compiled c seen => call.since ≤ seen ∧ CompiledAt history call.projectId c seen
  | .gave c => ∃ i ≥ call.since, CompiledAt history call.projectId c i

/-- What the cache holds is as new as the last write that cleared it. -/
structure Sound (s : State) : Prop where
  last : s.history[s.history.length - 1]? = some s.service.held
  long : s.history.length = (match s.putting with | .updated | .cleared => s.returned + 2 | _ => s.returned + 1)
  kept : ∀ p c, s.service.compiled p = some c → ∃ i ≥ s.cleared, CompiledAt s.history p c i
  begun : ∀ call ∈ s.calls, call.since ≤ s.returned
  agrees : ∀ call ∈ s.calls, call.Agrees s.history

theorem CompiledAt.grows (compiled : CompiledAt s.history projectId c i) (held : Policies) :
    CompiledAt (s.history ++ [held]) projectId c i := by
  obtain ⟨found, there, same⟩ := compiled
  exact ⟨found, getElem?_append_left (List.getElem?_eq_some_iff.mp there).1 ▸ there, same⟩

theorem Call.Agrees.grows (agrees : call.Agrees s.history) (held : Policies) : call.Agrees (s.history ++ [held]) := by
  unfold Call.Agrees at agrees ⊢
  split at agrees
  · trivial
  · trivial
  · exact ⟨agrees.1, agrees.2.grows held⟩
  · obtain ⟨i, late, compiled⟩ := agrees
    exact ⟨i, late, compiled.grows held⟩

theorem returned_le_cleared (s : State) : s.returned ≤ s.cleared := by
  unfold State.cleared
  split <;> omega

theorem Sound.moves (sound : Sound s) (found : s.calls[i]? = some call) {stage : Stage}
    (agrees : Call.Agrees { call with stage } s.history) : Sound (s.moves i call stage) := by
  refine ⟨sound.last, sound.long, sound.kept, fun other inside => ?_, fun other inside => ?_⟩
  all_goals obtain old | rfl := mem_or_eq_of_mem_set inside
  · exact sound.begun other old
  · exact sound.begun call (mem_of_getElem? found)
  · exact sound.agrees other old
  · exact agrees

theorem Sound.insert (sound : Sound s) {seen : Nat} (late : s.cleared ≤ seen)
    (compiled : CompiledAt s.history projectId c seen) : Sound { s with service := s.service.remember projectId c } := by
  refine ⟨sound.last, sound.long, fun p held found => ?_, sound.begun, sound.agrees⟩
  by_cases same : p = projectId
  · obtain rfl : c = held := by simpa [PolicyService.remember, same] using found
    exact ⟨seen, late, same ▸ compiled⟩
  · exact sound.kept p held (by simpa [PolicyService.remember, same] using found)

theorem sound_start (held : Policies) : Sound (start held) :=
  ⟨rfl, rfl, fun _ _ => nofun, forall_mem_nil _, forall_mem_nil _⟩

theorem Sound.step (sound : Sound s) {e : Event} (timely : Timely s e)
    (next : Racing.step floatText s e = some t) : Sound t := by
  cases e with
  | begins projectId =>
    cases next
    refine ⟨sound.last, sound.long, sound.kept, fun call inside => ?_, fun call inside => ?_⟩
    all_goals obtain old | new := mem_append.mp inside
    · exact sound.begun call old
    · rw [mem_singleton.mp new]
    · exact sound.agrees call old
    · rw [mem_singleton.mp new]
      trivial
  | look i =>
    obtain ⟨call, found, next⟩ := Option.bind_eq_some_iff.mp next
    split at next
    · cases next
      refine sound.moves found ?_
      cases cached : s.service.compiled call.projectId with
      | none => trivial
      | some c =>
        obtain ⟨i, late, compiled⟩ := sound.kept _ c cached
        have begun := sound.begun call (mem_of_getElem? found)
        exact ⟨i, begun.trans ((returned_le_cleared s).trans late), compiled⟩
    · cases next
  | compile i =>
    obtain ⟨call, found, next⟩ := Option.bind_eq_some_iff.mp next
    split at next
    · rename_i free
      cases next
      have long := sound.long
      simp only [free] at long
      have begun := sound.begun call (mem_of_getElem? found)
      exact sound.moves found ⟨by dsimp only; omega, s.service.held, sound.last, rfl⟩
    · cases next
  | insert i =>
    obtain ⟨call, found, next⟩ := Option.bind_eq_some_iff.mp next
    split at next
    · rename_i c seen stage
      cases next
      have agrees := sound.agrees call (mem_of_getElem? found)
      rw [Call.Agrees, stage] at agrees
      have late : s.cleared ≤ seen := timely seen (by simp [found, Call.seen, stage])
      have given : Call.Agrees { call with stage := .gave c } s.history := ⟨seen, agrees.1, agrees.2⟩
      exact (sound.moves found given).insert late agrees.2
    · cases next
  | store d generation =>
    dsimp only [Racing.step] at next
    split at next
    · rename_i free _
      cases next
      have long := sound.long
      have kept := sound.kept
      simp only [free] at long
      rw [State.cleared, free] at kept
      exact ⟨sound.last, long, kept, sound.begun, sound.agrees⟩
    · cases next
  | update =>
    dsimp only [Racing.step] at next
    split at next
    · rename_i d generation stored
      split at next
      · cases next
      · cases next
        have long := sound.long
        have kept := sound.kept
        simp only [stored] at long
        rw [State.cleared, stored] at kept
        refine ⟨by simp, by simp [long], fun p c found => ?_, sound.begun, fun call inside => ?_⟩
        · obtain ⟨i, late, compiled⟩ := kept p c found
          exact ⟨i, late, compiled.grows _⟩
        · exact (sound.agrees call inside).grows _
    · cases next
  | clear =>
    dsimp only [Racing.step] at next
    split at next
    · rename_i updated
      cases next
      have long := sound.long
      simp only [updated] at long
      exact ⟨sound.last, long, fun _ _ => nofun, sound.begun, sound.agrees⟩
    · cases next
  | done =>
    dsimp only [Racing.step] at next
    split at next
    · rename_i cleared
      cases next
      have long := sound.long
      have kept := sound.kept
      simp only [cleared] at long
      rw [State.cleared, cleared] at kept
      exact ⟨sound.last, long, kept, fun call inside => (sound.begun call inside).trans (Nat.le_succ _), sound.agrees⟩
    · cases next

end

/-- A write is in effect for every call that begins after it returned, where nothing is inserted that was compiled before
a write that has cleared the cache since. -/
theorem write_takes_effect {floatText : UInt64 → String} {held : Policies} {s : State}
    (run : Reach (step floatText) Timely (start held) s) : InEffect s := by
  have sound := run.invariant Sound (sound_start held) fun _ _ _ sound timely next => sound.step timely next
  intro call inside c gave
  have agrees := sound.agrees call inside
  rwa [Call.Agrees, gave] at agrees

def killed : Document := { Document.blank .installation "" with killSwitch := some true }

def project : Id := 0

theorem write_takes_effect_killed : ∃ s, Reach (step fun _ => "") Timely (start .new) s ∧ InEffect s ∧
    s.calls.map Call.since = [1] ∧ (s.service.compiled project).isSome := by
  obtain ⟨s, run, seen⟩ := @Reach.of_exec_any _ _ (step fun _ => "") Timely _ (start .new)
    [.store killed none, .update, .clear, .done, .begins project, .look 0, .compile 0, .insert 0]
    (fun s => s.calls.map Call.since = [1] ∧ (s.service.compiled project).isSome) (by decide +kernel)
  exact ⟨s, run, write_takes_effect run, of_decide_eq_true seen⟩

/-- Whether a call that began after the only write was given a policy that is not killed, which the write's documents do
not compile to. -/
def Outlived (s : State) : Bool :=
  match s.calls, s.history with
  | [_, ⟨projectId, 1, .gave c⟩], [_, held] =>
      !c.killSwitch && (held.compile "" (hex projectId.bytes) "" "").killSwitch
  | _, _ => false

/-- A call compiles before the kill switch is written and inserts after it, and a later call is given the policy from
before. -/
theorem stale_after_put : ∃ s, Reach (step fun _ => "") anyStep (start .new) s ∧ ¬InEffect s := by
  obtain ⟨s, run, seen⟩ := @Reach.of_exec_any _ _ (step fun _ => "") anyStep _ (start .new)
    [.begins project, .look 0, .compile 0, .store killed none, .update, .clear, .done, .insert 0, .begins project,
      .look 1] Outlived (by decide +kernel)
  refine ⟨s, run, fun inEffect => ?_⟩
  unfold Outlived at seen
  split at seen
  · rename_i first projectId c before held calls history
    obtain ⟨i, late, found, there, given⟩ := inEffect ⟨projectId, 1, .gave c⟩ (by simp [calls]) c rfl
    rw [history] at there
    obtain rfl : i = 1 := by
      have short := (List.getElem?_eq_some_iff.mp there).1
      simp only [List.length_cons, List.length_nil] at short
      exact le_antisymm (by omega) late
    cases there
    simp [given] at seen
  · cases seen

end TallyOwl.Policy.Racing
