import TallyOwl.Head.Alike

/-! Grouping by values (`query.rs`). A key stands for the value that it was made of, and a group row and a
distinct count read only keys. A number is one number whatever its signedness, and an unsigned number is cast
into a signed key. -/
namespace TallyOwl.Query
open Lib RowCodec TallyOwl.Expr Locate List OrderedMap
open Segmented (timeOf)

/-- What a value denotes, where a grouping goes by what it denotes. -/
inductive Meaning where
  | truth (v : Bool)
  | number (n : Int)
  | text (v : String)
  | bytes (v : Bytes)
  deriving DecidableEq

def meaning : PropertyValue → Option Meaning
  | .boolean v => some (.truth v)
  | .integer v => some (.number v)
  | .unsigned v => some (.number v)
  | .text v => some (.text v)
  | .bytes v => some (.bytes v)
  | .null | .float _ | .decimal _ => none

/-- A value of a type that groups by what it denotes, in the range of its type. -/
def Keyed : PropertyValue → Prop
  | .boolean _ | .text _ | .bytes _ => True
  | .integer v => InI64 v
  | .unsigned v => v < 2 ^ 64
  | .null | .float _ | .decimal _ => False

def Signed : PropertyValue → Prop
  | .unsigned v => v < 2 ^ 63
  | _ => True

def bucketOf (engine : Engine) (plan : Plan) (row : EventRow) : Option Int :=
  plan.bucketing.map fun bucketing => bucketing.bucketOf engine (timeOf row plan.basis)

/-- Keys neither merge different values nor change them, and so neither do group rows and distinct counts. -/
structure Faithful (engine : Engine) (values : List PropertyValue) : Prop where
  keys : ∀ v ∈ values, ∀ w ∈ values,
    GroupKey.of engine.floats.display (some v) = GroupKey.of engine.floats.display (some w) ↔ meaning v = meaning w
  held : ∀ v ∈ values, meaning (GroupKey.of engine.floats.display (some v)).value = meaning v
  counted : (keySet engine values).entries.length = (values.map meaning).dedup.length
  rows : ∀ (plan : Plan) (first second : EventRow),
    (∀ field ∈ plan.dimensions, ∀ row ∈ [first, second], ∃ v ∈ values, (read field row).value = some v) →
      (keyOf engine plan first = keyOf engine plan second ↔ bucketOf engine plan first = bucketOf engine plan second ∧
        plan.dimensions.map (fun field => (read field first).value.bind meaning) =
          plan.dimensions.map fun field => (read field second).value.bind meaning)

section
variable {engine : Engine} {values : List PropertyValue} {v w : PropertyValue}

theorem wrapI64_eq {n : Int} (inside : InI64 n) : wrapI64 n = n := by
  obtain ⟨low, high⟩ := inside
  rw [wrapI64, Int.bmod_def]
  split <;> omega

def Meaning.key : Meaning → GroupKey
  | .truth v => .boolean v
  | .number n => .integer n
  | .text v => .text v
  | .bytes v => .bytes v

theorem meaning_key (m : Meaning) : meaning m.key.value = some m := by cases m <;> rfl

theorem of_eq_key (keyed : Keyed v) (signed : Signed v) (display : UInt64 → String) :
    ∃ m, meaning v = some m ∧ GroupKey.of display (some v) = m.key := by
  cases v with
  | boolean b => exact ⟨.truth b, rfl, rfl⟩
  | integer n => exact ⟨.number n, rfl, rfl⟩
  | unsigned n =>
    have inside : InI64 n := ⟨by omega, by exact_mod_cast signed⟩
    exact ⟨.number n, rfl, congrArg GroupKey.integer (wrapI64_eq inside)⟩
  | text s => exact ⟨.text s, rfl, rfl⟩
  | bytes b => exact ⟨.bytes b, rfl, rfl⟩
  | null => exact keyed.elim
  | float bits => exact keyed.elim
  | decimal s => exact keyed.elim

theorem meaning_value (keyed : Keyed v) (signed : Signed v) (display : UInt64 → String) :
    meaning (GroupKey.of display (some v)).value = meaning v := by
  obtain ⟨m, denotes, key⟩ := of_eq_key keyed signed display
  rw [key, denotes, meaning_key]

theorem signed_of_meaning_value (display : UInt64 → String)
    (same : meaning (GroupKey.of display (some v)).value = meaning v) : Signed v := by
  cases v with
  | unsigned n =>
    simp only [GroupKey.of, GroupKey.value, meaning, Option.some.injEq, Meaning.number.injEq] at same
    obtain ⟨-, high⟩ := inI64_wrapI64 n
    rw [same] at high
    exact_mod_cast high
  | _ => trivial

theorem of_eq_iff (keyed : Keyed v ∧ Keyed w) (signed : Signed v ∧ Signed w) (display : UInt64 → String) :
    GroupKey.of display (some v) = GroupKey.of display (some w) ↔ meaning v = meaning w := by
  obtain ⟨m, first, key⟩ := of_eq_key keyed.1 signed.1 display
  obtain ⟨n, second, key'⟩ := of_eq_key keyed.2 signed.2 display
  rw [first, second, key, key']
  refine ⟨fun same => ?_, fun same => by rw [Option.some.inj same]⟩
  rw [← meaning_key m, same, meaning_key]

theorem length_dedup_map {α β γ : Type*} [DecidableEq β] [DecidableEq γ] {f : α → β} {g : α → γ} {xs : List α}
    (same : ∀ x ∈ xs, ∀ y ∈ xs, f x = f y ↔ g x = g y) : (xs.map f).dedup.length = (xs.map g).dedup.length := by
  induction xs with
  | nil => rfl
  | cons x xs ih =>
    have rest := ih fun y first z second => same y (mem_cons_of_mem _ first) z (mem_cons_of_mem _ second)
    have seen : f x ∈ xs.map f ↔ g x ∈ xs.map g := by
      simp only [mem_map]
      exact exists_congr fun y => and_congr_right fun inside =>
        same y (mem_cons_of_mem _ inside) x mem_cons_self
    rw [map_cons, map_cons]
    by_cases old : f x ∈ xs.map f
    · rw [dedup_cons_of_mem old, dedup_cons_of_mem (seen.mp old), rest]
    · rw [dedup_cons_of_notMem old, dedup_cons_of_notMem (fun new => old (seen.mpr new)),
        length_cons, length_cons, rest]

theorem length_keySet : (keySet engine values).entries.length =
    (values.map fun v => GroupKey.of engine.floats.display (some v)).dedup.length := by
  rw [← length_map Prod.fst]
  refine List.Perm.length_eq ((perm_ext_iff_of_nodup (nodup_keys _) (nodup_dedup _)).mpr
    fun key => ?_)
  rw [List.mem_dedup, mem_map, mem_map, ← mem_keySet]
  exact ⟨fun ⟨⟨k, u⟩, inside, same⟩ => same ▸ inside, fun inside => ⟨_, inside, rfl⟩⟩

theorem keyOf_eq_iff {plan : Plan} {first second : EventRow} (same : ∀ v ∈ values, ∀ w ∈ values,
    GroupKey.of engine.floats.display (some v) = GroupKey.of engine.floats.display (some w) ↔ meaning v = meaning w)
    (inside : ∀ field ∈ plan.dimensions, ∀ row ∈ [first, second], ∃ v ∈ values, (read field row).value = some v) :
    keyOf engine plan first = keyOf engine plan second ↔ bucketOf engine plan first = bucketOf engine plan second ∧
      plan.dimensions.map (fun field => (read field first).value.bind meaning) =
        plan.dimensions.map fun field => (read field second).value.bind meaning := by
  have buckets : (plan.bucketing.toList.map fun bucketing =>
      GroupKey.integer (bucketing.bucketOf engine (timeOf first plan.basis))) =
        (plan.bucketing.toList.map fun bucketing =>
          GroupKey.integer (bucketing.bucketOf engine (timeOf second plan.basis))) ↔
      bucketOf engine plan first = bucketOf engine plan second := by
    unfold bucketOf
    cases plan.bucketing <;> simp
  have fields : (plan.dimensions.map fun field => GroupKey.of engine.floats.display (read field first).value) =
      (plan.dimensions.map fun field => GroupKey.of engine.floats.display (read field second).value) ↔
      plan.dimensions.map (fun field => (read field first).value.bind meaning) =
        plan.dimensions.map fun field => (read field second).value.bind meaning := by
    rw [map_eq_map_iff, map_eq_map_iff]
    refine forall₂_congr fun field named => ?_
    obtain ⟨v, held, found⟩ := inside field named first (by simp)
    obtain ⟨w, held', found'⟩ := inside field named second (by simp)
    rw [found, found']
    exact same v held w held'
  rw [← buckets, ← fields, keyOf, keyOf]
  exact ⟨fun whole => append_inj' whole (by simp), fun parts => by rw [parts.1, parts.2]⟩

end

theorem faithful_iff (engine : Engine) (values : List PropertyValue) (keyed : ∀ v ∈ values, Keyed v) :
    Faithful engine values ↔ ∀ v ∈ values, Signed v := by
  constructor
  · intro faithful v inside
    exact signed_of_meaning_value _ (faithful.held v inside)
  · intro signed
    have same : ∀ v ∈ values, ∀ w ∈ values, GroupKey.of engine.floats.display (some v) =
        GroupKey.of engine.floats.display (some w) ↔ meaning v = meaning w := fun v first w second =>
      of_eq_iff ⟨keyed v first, keyed w second⟩ ⟨signed v first, signed w second⟩ _
    exact ⟨same, fun v inside => meaning_value (keyed v inside) (signed v inside) _,
      length_keySet.trans (length_dedup_map same),
      fun plan first second inside => keyOf_eq_iff same inside⟩

def sevens : List PropertyValue := [.unsigned 7, .integer 7, .text "7"]

theorem faithful_iff_sevens : (∀ v ∈ sevens, Keyed v) ∧ Faithful plainEngine sevens := by
  have keyed : ∀ v ∈ sevens, Keyed v := by simp [sevens, Keyed, InI64]
  exact ⟨keyed, (faithful_iff plainEngine sevens keyed).mpr (by simp [sevens, Signed])⟩

def wrapped : List PropertyValue := [.unsigned (2 ^ 64 - 1), .integer (-1)]

theorem wrapped_merged : ¬ ∀ (engine : Engine) (values : List PropertyValue), (∀ v ∈ values, Keyed v) →
    Faithful engine values := by
  intro all
  have keyed : ∀ v ∈ wrapped, Keyed v := by simp [wrapped, Keyed, InI64]
  have same := ((all plainEngine wrapped keyed).keys (.unsigned (2 ^ 64 - 1)) (by simp [wrapped]) (.integer (-1))
    (by simp [wrapped])).mp (by rfl)
  simp [meaning] at same

end TallyOwl.Query
