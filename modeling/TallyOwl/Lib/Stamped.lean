import Mathlib.Data.List.Basic
import Mathlib.Order.Lattice

/-! Logs whose entries carry the stamp of the writer that made them. Every writer has one log,
which only grows, and a log matches when each of its prefixes is one of the log of its last
entry's writer. -/
namespace TallyOwl.Lib
open List
variable {β ε : Type*} [LinearOrder β] (stamp : ε → β)

/-- Every front is a front of the log of the writer that stamped its last entry. -/
structure Matches (canon : β → Option (List ε)) (log : List ε) : Prop where
  chain : ∀ (i : Nat) (e : ε), log[i]? = some e →
    ∃ whole, canon (stamp e) = some whole ∧ log.take (i + 1) <+: whole
  ordered : log.Pairwise fun a b => stamp a ≤ stamp b

def Grows (canon canon' : β → Option (List ε)) : Prop :=
  ∀ b whole, canon b = some whole → ∃ longer, canon' b = some longer ∧ whole <+: longer

/-- Take entries into a log behind a position: what is there stays up to the first entry with
another stamp, and the rest is dropped with it. -/
def store (log : List ε) : Nat → List ε → List ε
  | _, [] => log
  | position, entry :: rest =>
      match log[position]? with
      | some held =>
          if stamp held = stamp entry then store log (position + 1) rest else log.take position ++ entry :: rest
      | none => log.take position ++ entry :: rest

/-- Whether a log is no older than another: by the last stamp, then by the length. -/
def upToDate (log other : List ε) : Bool :=
  match other.getLast?, log.getLast? with
  | none, _ => true
  | some _, none => false
  | some theirs, some ours => stamp theirs < stamp ours ∨ stamp theirs = stamp ours ∧ other.length ≤ log.length

variable {stamp} {canon canon' : β → Option (List ε)} {log other whole : List ε}

theorem Grows.update {b : β} {longer : List ε} (within : ∀ whole, canon b = some whole → whole <+: longer) :
    Grows canon (Function.update canon b (some longer)) := by
  intro c whole is
  by_cases same : c = b
  · subst same
    exact ⟨longer, Function.update_self .., within whole is⟩
  · exact ⟨whole, by rw [Function.update_of_ne same, is], prefix_refl _⟩

theorem matches_nil : Matches stamp canon ([] : List ε) :=
  ⟨fun _ _ found => by simp at found, .nil⟩

variable (matched : Matches stamp canon log)
include matched

theorem Matches.grows (grows : Grows canon canon') : Matches stamp canon' log := by
  refine ⟨fun i e found => ?_, matched.ordered⟩
  obtain ⟨whole, is, within⟩ := matched.chain i e found
  obtain ⟨longer, is', further⟩ := grows _ whole is
  exact ⟨longer, is', within.trans further⟩

theorem Matches.agree (matched' : Matches stamp canon other) {i : Nat}
    {e e' : ε} (found : log[i]? = some e) (found' : other[i]? = some e') (same : stamp e = stamp e') :
    log.take (i + 1) = other.take (i + 1) := by
  obtain ⟨whole, is, within⟩ := matched.chain i e found
  obtain ⟨whole', is', within'⟩ := matched'.chain i e' found'
  rw [same, is'] at is
  cases is
  have length : (log.take (i + 1)).length = (other.take (i + 1)).length := by
    have inside := (List.getElem?_eq_some_iff.mp found).1
    have inside' := (List.getElem?_eq_some_iff.mp found').1
    rw [length_take, length_take]
    omega
  exact (prefix_of_prefix_length_le within within' (Nat.le_of_eq length)).eq_of_length length

theorem Matches.front (within : other <+: log) : Matches stamp canon other := by
  refine ⟨fun i e found => ?_, matched.ordered.sublist within.sublist⟩
  obtain ⟨rest, rfl⟩ := within
  have inside := (List.getElem?_eq_some_iff.mp found).1
  obtain ⟨whole, is, within⟩ := matched.chain i e (by rw [getElem?_append_left inside]; exact found)
  rw [take_append_of_le_length inside] at within
  exact ⟨whole, is, within⟩

theorem Matches.writer {e : ε} (last : log.getLast? = some e) :
    ∃ whole, canon (stamp e) = some whole ∧ log <+: whole := by
  have some : log ≠ [] := by
    rintro rfl
    cases last
  have long := length_pos_iff.mpr some
  rw [getLast?_eq_getElem?] at last
  obtain ⟨whole, is, within⟩ := matched.chain _ e last
  rw [Nat.sub_add_cancel long, take_length] at within
  exact ⟨whole, is, within⟩

theorem Matches.push {e : ε} (newest : ∀ old ∈ log, stamp old ≤ stamp e)
    (grows : Grows canon canon') (is : canon' (stamp e) = some (log ++ [e])) : Matches stamp canon' (log ++ [e]) := by
  constructor
  · intro i entry found
    rcases Nat.lt_or_ge i log.length with low | high
    · rw [getElem?_append_left low] at found
      obtain ⟨whole, is, within⟩ := (matched.grows grows).chain i entry found
      rw [take_append_of_le_length low]
      exact ⟨whole, is, within⟩
    · have inside := (List.getElem?_eq_some_iff.mp found).1
      rw [length_append, length_singleton] at inside
      obtain rfl : i = log.length := by omega
      obtain rfl : e = entry := by simpa using found
      exact ⟨log ++ [e], is, take_prefix _ _⟩
  · rw [pairwise_append]
    refine ⟨matched.ordered, pairwise_singleton _ _, fun old inside new is => ?_⟩
    rw [mem_singleton.mp is]
    exact newest old inside

omit matched

theorem getElem?_of_front {base rest : List ε} {e : ε} (within : base ++ e :: rest <+: log) :
    log[base.length]? = some e := by
  obtain ⟨behind, rfl⟩ := within
  simp

/-- What is taken in behind a shared front is the front of the writer's log, or was there
already. Where something was dropped for it, it was not. -/
theorem store_cases (matched : Matches stamp canon log) (matched' : Matches stamp canon whole)
    {base entries : List ε} (front : base <+: log) (slice : base ++ entries <+: whole) :
    (store stamp log base.length entries = log ∧ base ++ entries <+: log) ∨
      (store stamp log base.length entries = base ++ entries ∧ ¬ base ++ entries <+: log) := by
  induction entries generalizing base with
  | nil => exact .inl ⟨rfl, by simpa using front⟩
  | cons entry rest ih =>
    have here : whole[base.length]? = some entry := getElem?_of_front slice
    have cut : log.take base.length = base := (prefix_iff_eq_take.mp front).symm
    cases held : log[base.length]? with
    | none =>
      refine .inr ⟨by simp only [store, held, cut], fun within => ?_⟩
      rw [getElem?_of_front within] at held
      cases held
    | some old =>
      by_cases equal : stamp old = stamp entry
      · have grown : base ++ [entry] <+: log := by
          have shared := matched.agree matched' held here equal
          have next : base ++ [entry] <+: whole := by
            refine List.IsPrefix.trans ?_ slice
            exact ⟨rest, by simp⟩
          have longer : base ++ [entry] = whole.take (base.length + 1) := by
            simpa using prefix_iff_eq_take.mp next
          rw [longer, ← shared]
          exact take_prefix _ _
        have further := ih grown (by simpa using slice)
        simpa [store, held, equal] using further
      · refine .inr ⟨by simp only [store, held, if_neg equal, cut], fun within => ?_⟩
        rw [getElem?_of_front within] at held
        exact equal (congrArg stamp (Option.some.inj held)).symm

/-- A log that is no older than one with a front has the front, if the writers between have
it. -/
theorem prefix_of_upToDate {b limit : β} {front : List ε} {e : ε} (matched : Matches stamp canon log)
    (matched' : Matches stamp canon other) (newer : upToDate stamp log other = true)
    (held : front <+: other) (last : front.getLast? = some e) (made : stamp e = b)
    (early : ∀ e ∈ front, stamp e ≤ b) (below : ∀ e ∈ log, stamp e < limit)
    (later : ∀ c writer, canon c = some writer → b < c → c < limit → front <+: writer) : front <+: log := by
  cases theirs : other.getLast? with
  | none =>
    rw [getLast?_eq_none_iff] at theirs
    rw [theirs, prefix_nil] at held
    simp [held] at last
  | some y =>
    cases ours : log.getLast? with
    | none => simp [upToDate, theirs, ours] at newer
    | some x =>
      have reaches : b ≤ stamp y := by
        rw [← made]
        obtain ⟨rest, rfl⟩ := held
        rw [getLast?_append] at theirs
        cases behind : rest.getLast? with
        | none =>
          rw [behind, last] at theirs
          rw [Option.some.inj theirs]
        | some z =>
          rw [behind] at theirs
          rw [← Option.some.inj theirs]
          exact (pairwise_append.mp matched'.ordered).2.2 e (mem_of_getLast? last) z
            (mem_of_getLast? behind)
      obtain ⟨writer, is, within⟩ := matched.writer ours
      have inside : x ∈ log := mem_of_getLast? ours
      simp only [upToDate, theirs, ours, decide_eq_true_eq] at newer
      rcases newer with newer | ⟨same, longer⟩
      · have carried := later _ writer is (reaches.trans_lt newer) (below x inside)
        rcases List.prefix_or_prefix_of_prefix carried within with there | short
        · exact there
        · have small := early x (short.subset inside)
          exact absurd (reaches.trans_lt newer) (not_lt_of_ge small)
      · obtain ⟨writer', is', within'⟩ := matched'.writer theirs
        rw [same, is] at is'
        cases is'
        exact held.trans (prefix_of_prefix_length_le within' within longer)

end TallyOwl.Lib
