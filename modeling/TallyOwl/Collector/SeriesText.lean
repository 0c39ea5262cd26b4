import TallyOwl.Collector.Series
import TallyOwl.Lib.StableSort

/-! When two series have one key (`tallyowl-compat`): the labels are written one behind another, and what ends a name
or a value may be in it. -/
namespace TallyOwl.Wire
open Lib List

abbrev Label := String × String

def labelMark : Char := Char.ofNat 1

def valueMark : Char := Char.ofNat 2

def bodyOf : List Label → List Char
  | [] => []
  | (name, value) :: rest => labelMark :: (name.toList ++ valueMark :: (value.toList ++ bodyOf rest))

/-- A name or a value of one list goes on, behind what both share, into the bytes of the other. -/
inductive RunsOver : List Label → List Label → Prop where
  | name {name longer value other : String} {rest after : List Label} (more : List Char)
      (goesOn : longer.toList = name.toList ++ valueMark :: more)
      (same : value.toList ++ bodyOf rest = more ++ valueMark :: (other.toList ++ bodyOf after)) :
      RunsOver ((name, value) :: rest) ((longer, other) :: after)
  | value {name value longer : String} {rest after : List Label} (more : List Char) (some : more ≠ [])
      (goesOn : longer.toList = value.toList ++ more) (same : bodyOf rest = more ++ bodyOf after) :
      RunsOver ((name, value) :: rest) ((name, longer) :: after)
  | behind {first second : List Label} (label : Label) (later : RunsOver first second) :
      RunsOver (label :: first) (label :: second)

section
variable {p q : List Label}

theorem RunsOver.apart (runs : RunsOver p q) : p ≠ q ∧ bodyOf p = bodyOf q := by
  induction runs with
  | name more goesOn same =>
    refine ⟨fun equal => ?_, ?_⟩
    · have names := (Prod.mk.inj (List.cons.inj equal).1).1
      rw [names, self_eq_append_right] at goesOn
      cases goesOn
    · rw [bodyOf, bodyOf, goesOn, same, append_assoc, cons_append]
  | value more some goesOn same =>
    refine ⟨fun equal => ?_, ?_⟩
    · have values := (Prod.mk.inj (List.cons.inj equal).1).2
      rw [values, self_eq_append_right] at goesOn
      exact some goesOn
    · rw [bodyOf, bodyOf, goesOn, same, append_assoc]
  | behind label later ih =>
    refine ⟨fun equal => ih.1 (List.cons.inj equal).2, ?_⟩
    rw [bodyOf, bodyOf, ih.2]

theorem runsOver_of_names {name longer value other : String} {rest after : List Label} {more : List Char}
    (some : more ≠ []) (goesOn : longer.toList = name.toList ++ more)
    (same : valueMark :: (value.toList ++ bodyOf rest) = more ++ valueMark :: (other.toList ++ bodyOf after)) :
    RunsOver ((name, value) :: rest) ((longer, other) :: after) := by
  cases more with
  | nil => exact absurd rfl some
  | cons c more =>
    obtain ⟨rfl, behind⟩ := List.cons.inj same
    exact .name more goesOn behind

theorem runsOver_of_values {name value held : String} {rest after : List Label}
    (same : value.toList ++ bodyOf rest = held.toList ++ bodyOf after)
    (behind : bodyOf rest = bodyOf after → rest = after ∨ RunsOver rest after ∨ RunsOver after rest) :
    (name, value) :: rest = (name, held) :: after ∨ RunsOver ((name, value) :: rest) ((name, held) :: after) ∨
      RunsOver ((name, held) :: after) ((name, value) :: rest) := by
  have level {value held : String} {more : List Char} (goesOn : held.toList = value.toList ++ more)
      (none : more = []) : held = value := String.toList_injective (by rw [goesOn, none, append_nil])
  rcases append_eq_append_iff.mp same with ⟨more, goesOn, later⟩ | ⟨more, goesOn, later⟩
  · by_cases none : more = []
    · obtain rfl := level goesOn none
      rw [none, nil_append] at later
      rcases behind later with rfl | runs | runs
      · exact .inl rfl
      · exact .inr (.inl (.behind _ runs))
      · exact .inr (.inr (.behind _ runs))
    · exact .inr (.inl (.value more none goesOn later))
  · by_cases none : more = []
    · obtain rfl := level goesOn none
      rw [none, nil_append] at later
      rcases behind later.symm with rfl | runs | runs
      · exact .inl rfl
      · exact .inr (.inl (.behind _ runs))
      · exact .inr (.inr (.behind _ runs))
    · exact .inr (.inr (.value more none goesOn later))

theorem bodyOf_inj : bodyOf p = bodyOf q ↔ p = q ∨ RunsOver p q ∨ RunsOver q p := by
  constructor
  · intro same
    induction p generalizing q with
    | nil =>
      cases q with
      | nil => exact .inl rfl
      | cons label rest => cases same
    | cons label rest ih =>
      cases q with
      | nil => cases same
      | cons other after =>
        obtain ⟨name, value⟩ := label
        obtain ⟨called, held⟩ := other
        rw [bodyOf, bodyOf] at same
        -- one of the names is a beginning of the other
        rcases append_eq_append_iff.mp (List.cons.inj same).2 with ⟨more, goesOn, behind⟩ | ⟨more, goesOn, behind⟩
        · by_cases none : more = []
          · subst none
            obtain rfl : called = name := String.toList_injective (by simpa using goesOn)
            exact runsOver_of_values (List.cons.inj behind).2 ih
          · exact .inr (.inl (runsOver_of_names none goesOn behind))
        · by_cases none : more = []
          · subst none
            obtain rfl : name = called := String.toList_injective (by simpa using goesOn)
            exact runsOver_of_values (List.cons.inj behind).2.symm ih
          · exact .inr (.inr (runsOver_of_names none goesOn behind))
  · rintro (rfl | runs | runs)
    · rfl
    · exact runs.apart.2
    · exact runs.apart.2.symm

end

section
variable (floatText : UInt64 → String)

def labelTexts (labels : List Property) : List Label := labels.map fun label => (label.key, labelText floatText label)

def inKeyOrder (texts : List Label) : List Label :=
  texts.insertionSort fun a b => a.1 < b.1 ∨ a.1 = b.1 ∧ a.2 ≤ b.2

variable {texts other : List Label}

theorem inKeyOrder_eq : inKeyOrder texts = texts.insertionSort fun a b => toLex a ≤ toLex b := by
  unfold inKeyOrder
  simp only [Prod.Lex.toLex_le_toLex]

theorem perm_inKeyOrder : (inKeyOrder texts).Perm texts := perm_insertionSort _ _

theorem inKeyOrder_inj : inKeyOrder texts = inKeyOrder other ↔ texts.Perm other := by
  constructor
  · intro same
    exact perm_inKeyOrder.symm.trans (same ▸ perm_inKeyOrder)
  · intro perm
    refine List.Perm.eq_of_pairwise (fun a b _ _ low high => toLex_inj.mp (le_antisymm low high)) ?_ ?_
      (perm_inKeyOrder.trans (perm.trans perm_inKeyOrder.symm))
    · rw [inKeyOrder_eq]
      exact pairwise_sorted _
    · rw [inKeyOrder_eq]
      exact pairwise_sorted _

/-- Two lists of labels whose text is one and which are not the same labels. -/
def RunTogether (texts other : List Label) : Prop :=
  RunsOver (inKeyOrder texts) (inKeyOrder other) ∨ RunsOver (inKeyOrder other) (inKeyOrder texts)

theorem bodyOf_inKeyOrder : bodyOf (inKeyOrder texts) = bodyOf (inKeyOrder other) ↔
    texts.Perm other ∨ RunTogether texts other := by
  rw [bodyOf_inj, inKeyOrder_inj, RunTogether]

theorem RunTogether.apart (together : RunTogether texts other) : ¬texts.Perm other := by
  rw [← inKeyOrder_inj]
  rcases together with runs | runs
  · exact runs.apart.1
  · exact runs.apart.1.symm

theorem toList_foldl_labels (key : String) :
    (texts.foldl (fun key label => key ++ "\u0001" ++ label.1 ++ "\u0002" ++ label.2) key).toList =
      key.toList ++ bodyOf texts := by
  have first : "\u0001".toList = [labelMark] := by decide
  have second : "\u0002".toList = [valueMark] := by decide
  induction texts generalizing key with
  | nil => simp [bodyOf]
  | cons label rest ih =>
    rw [foldl_cons, ih]
    simp [bodyOf, first, second]

theorem toList_seriesKeyOf (kind : MetricKind) (labels : List Property) : (seriesKeyOf floatText kind labels).toList =
    kind.name.toList ++ bodyOf (inKeyOrder (labelTexts floatText labels)) := toList_foldl_labels kind.name

theorem kind_of_append {kind other : MetricKind} {body rest : List Char}
    (same : kind.name.toList ++ body = other.name.toList ++ rest) : kind = other ∧ body = rest := by
  have kinds : kind = other := by
    have heads := congrArg List.head? same
    cases kind <;> cases other <;> first | rfl | exact absurd heads (by simp [MetricKind.name])
  subst kinds
  exact ⟨rfl, append_cancel_left same⟩

theorem seriesKeyOf_eq_iff {kind kind' : MetricKind} {labels labels' : List Property} :
    seriesKeyOf floatText kind labels = seriesKeyOf floatText kind' labels' ↔ kind = kind' ∧
      ((labelTexts floatText labels).Perm (labelTexts floatText labels') ∨
        RunTogether (labelTexts floatText labels) (labelTexts floatText labels')) := by
  rw [← bodyOf_inKeyOrder, ← String.toList_inj, toList_seriesKeyOf, toList_seriesKeyOf]
  constructor
  · exact kind_of_append
  · rintro ⟨rfl, same⟩
    rw [same]

end

end TallyOwl.Wire
