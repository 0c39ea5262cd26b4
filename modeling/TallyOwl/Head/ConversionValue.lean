import TallyOwl.Collector.Vouched
import TallyOwl.Head.Money
import TallyOwl.Head.Refusals

/-! The value that attribution credits a stored conversion with (`attribution.rs`, `money.rs`), and the accepted
conversions that carry one it can read. -/
namespace TallyOwl.Money
open Lib TallyOwl.Expr List
open Wire (CsilDecimal ConversionPayload Envelope TelemetryItem decimalText checkDecimal)
open Collector (TallyOwlError)
open Project (Properties Pair Projector setProperty setAll toStoreValue bind_eq_ok)
open Commit (maxValueDigits)

section

def Amount.zero : Amount := ⟨0, 0⟩

def Amount.value (amount : Amount) : ℚ := amount.units / 10 ^ amount.scale

def Amount.parse (text : String) : Option Amount :=
  let text := trim text.toList
  if text = [] then none
  else
    let (negative, rest) := signOf text
    let (whole, fraction) := splitPoint rest
    let scale := (String.ofList fraction).utf8ByteSize % 2 ^ 32
    if whole = [] ∧ fraction = [] then none
    else if maxScale < scale then none
    else do
      let digits ← (whole ++ fraction).mapM toDigit
      let units ← mantissaOf digits
      pure ⟨if negative then -units else units, scale⟩

variable (row : EventRow)

def notExact (text : String) : TallyOwlError := Collector.invalidArgument
  s!"The conversion `{hex row.eventId.bytes}` carries the value `{text}`, which is not an exact amount this build can divide. A credited value has to add up to the value it came from."

def notMoney (held : PropertyValue) : TallyOwlError := Collector.invalidArgument
  s!"The conversion `{hex row.eventId.bytes}` carries a {RowCodec.typeName held} value. Money is an exact decimal, never a float, so this one cannot be credited."

def tooLarge : TallyOwlError := Collector.invalidArgument
  s!"The conversion `{hex row.eventId.bytes}` carries a value with more than {maxValueDigits} digits before the decimal point, so it cannot be credited. Check the application that sent it."

def heldValueOf : Except TallyOwlError Amount :=
  match row.properties.lookup "value" with
  | none => .ok .zero
  | some (.decimal text, _) => (Amount.parse text).elim (.error (notExact row text)) .ok
  | some (.integer v, _) => .ok ⟨v, 0⟩
  | some (.unsigned v, _) => .ok ⟨v, 0⟩
  | some (held, _) => .error (notMoney row held)

def valueOf : Except TallyOwlError Amount := do
  let amount ← heldValueOf row
  if maxValueDigits < ((toString amount.units.natAbs).length - amount.scale : Nat) then .error (tooLarge row)
  else return amount

end

section
variable {text : String} {e m : Int}

theorem utf8ByteSize_digits {chars : List Char} (digits : chars.all Char.isDigit = true) :
    (String.ofList chars).utf8ByteSize = chars.length := by
  induction chars with
  | nil => rfl
  | cons c chars ih =>
    rw [all_cons, Bool.and_eq_true] at digits
    have one : c.utf8Size = 1 := by
      have digit := digits.1
      simp only [Char.isDigit, Bool.and_eq_true, decide_eq_true_eq, ge_iff_le, UInt32.le_iff_toNat_le] at digit
      have high : c.val.toNat ≤ 57 := digit.2
      unfold Char.utf8Size
      rw [if_pos (UInt32.le_iff_toNat_le.mpr (le_trans high (by decide)))]
    rw [String.ofList_cons, String.utf8ByteSize_append, ih digits.2]
    simp [one, Nat.add_comm]

theorem parse_eq : Amount.parse text = (splitDecimal text).bind fun parts =>
    if maxScale < parts.2.2.length % 2 ^ 32 then none else (mantissaOf (parts.2.1 ++ parts.2.2)).map fun units =>
      ⟨if parts.1 then -units else units, parts.2.2.length % 2 ^ 32⟩ := by
  unfold Amount.parse splitDecimal
  dsimp only
  set rest := signOf (trim text.toList) with signed
  by_cases empty : trim text.toList = []
  · rw [if_pos empty, signed, empty]
    rfl
  rw [if_neg empty]
  set whole := (splitPoint rest.2).1
  set fraction := (splitPoint rest.2).2
  rw [mapM_toDigit, mapM_toDigit, mapM_toDigit, all_append]
  cases front : whole.all Char.isDigit with
  | false => simp
  | true =>
    cases back : fraction.all Char.isDigit with
    | false => simp
    | true =>
      rw [utf8ByteSize_digits back]
      simp only [Bool.and_self, if_true, map_eq_nil_iff, Option.bind_eq_bind, Option.bind_some, Option.pure_def,
        map_append]
      by_cases none : whole = [] ∧ fraction = []
      · rw [if_pos none, if_pos none, Option.bind_none]
      · rw [if_neg none, if_neg none, Option.bind_some, length_map]
        exact congrArg _ (Option.map_eq_bind ..).symm

theorem digitsValue_toDigits (n : Nat) : digitsValue ((Nat.toDigits 10 n).map digitOf) = n := by
  rw [digitsValue_map, Nat.ofDigitChars_ten_toDigits]

theorem zeros_isDigit (n : Nat) : (List.replicate n '0').all Char.isDigit = true :=
  all_eq_true.mpr fun _ inside => (eq_of_mem_replicate inside) ▸ rfl

theorem digitsValue_zeros (n : Nat) : digitsValue ((List.replicate n '0').map digitOf) = 0 := by
  rw [map_replicate]
  exact digitsValue_replicate n

/-- The digits that a decimal is written with are those of its mantissa, moved by its exponent. -/
theorem splitDecimal_decimalText (range : checkDecimal e = .ok ()) : ∃ whole fraction,
    splitDecimal (decimalText e m) = some (decide (m < 0), whole, fraction) ∧ fraction.length = (-e).toNat ∧
      digitsValue (whole ++ fraction) = m.natAbs * 10 ^ e.toNat := by
  set digits := Nat.toDigits 10 m.natAbs
  have shown : toString m.natAbs = String.ofList digits := rfl
  have plain : digits.all Char.isDigit = true := toDigits_isDigit _
  have sign : (if m < 0 then "-" else "") = String.ofList (if decide (m < 0) then ['-'] else []) := by
    by_cases negative : m < 0 <;> simp [negative]
  have kept : ¬ (checkDecimal e).toOption = none := by
    rw [range]
    exact Option.some_ne_none _
  rcases lt_trichotomy e 0 with below | rfl | above
  · set scale := (-e).toNat
    by_cases short : digits.length ≤ scale
    · refine ⟨['0'].map digitOf, (List.replicate (scale - digits.length) '0' ++ digits).map digitOf, ?_, ?_, ?_⟩
      · rw [← @splitDecimal_rendered (decide (m < 0)) ['0'] _ (cons_ne_nil _ _) rfl
          (by rw [all_append, zeros_isDigit, plain]; rfl) true (fun is => by cases is)]
        refine congrArg splitDecimal ?_
        rw [decimalText, if_neg below.ne, if_neg kept, if_neg below.asymm]
        dsimp only
        rw [shown, String.length_ofList, if_pos short, sign, ← String.toList_inj]
        simp [scale]
      · rw [length_map, length_append, length_replicate]
        omega
      · rw [← map_append, ← append_assoc, map_append, digitsValue_append, digitsValue_toDigits,
          map_append, digitsValue_append, digitsValue_zeros, Int.toNat_of_nonpos below.le]
        simp [digitOf, digitsValue]
    · refine ⟨(digits.take (digits.length - scale)).map digitOf, (digits.drop (digits.length - scale)).map digitOf,
        ?_, ?_, ?_⟩
      · rw [← @splitDecimal_rendered (decide (m < 0)) (digits.take (digits.length - scale)) _
          (by rw [Ne, take_eq_nil_iff]; exact not_or.mpr ⟨by omega, Nat.toDigits_ne_nil⟩)
          (all_eq_true.mpr fun c inside => all_eq_true.mp plain c (mem_of_mem_take inside))
          (all_eq_true.mpr fun c inside => all_eq_true.mp plain c (mem_of_mem_drop inside)) true
          (fun is => by cases is)]
        refine congrArg splitDecimal ?_
        rw [decimalText, if_neg below.ne, if_neg kept, if_neg below.asymm]
        dsimp only
        rw [shown, String.length_ofList, if_neg short, sign, ← String.toList_inj]
        simp [scale]
      · rw [length_map, length_drop]
        omega
      · rw [← map_append, take_append_drop, digitsValue_toDigits, Int.toNat_of_nonpos below.le]
        simp
  · refine ⟨digits.map digitOf, [], ?_, rfl, ?_⟩
    · rw [decimalText, if_pos rfl, toString_int, splitDecimal_rendered Nat.toDigits_ne_nil plain rfl false fun _ => rfl]
      rfl
    · rw [append_nil, digitsValue_toDigits]
      simp
  · refine ⟨(digits ++ List.replicate e.toNat '0').map digitOf, [], ?_, ?_, ?_⟩
    · rw [← map_nil, ← @splitDecimal_rendered (decide (m < 0)) (digits ++ List.replicate e.toNat '0') [] (by simp [digits])
        (by rw [all_append, zeros_isDigit, plain]; rfl) rfl false (fun _ => rfl)]
      refine congrArg splitDecimal ?_
      rw [decimalText, if_neg above.ne', if_neg kept, if_pos above, sign]
      simp [← String.toList_inj, digits]
    · simp
      omega
    · rw [append_nil, map_append, digitsValue_append, digitsValue_toDigits, digitsValue_zeros]
      simp

theorem parse_decimalText (range : checkDecimal e = .ok ()) : Amount.parse (decimalText e m) =
    if maxScale < (-e).toNat ∨ 2 ^ 127 ≤ m.natAbs * 10 ^ e.toNat then none
    else some ⟨m * 10 ^ e.toNat, (-e).toNat⟩ := by
  obtain ⟨whole, fraction, split, length, value⟩ := @splitDecimal_decimalText e m range
  have low : -38 ≤ e := by
    unfold checkDecimal at range
    split at range
    · rename_i bounds
      exact bounds.1
    · cases range
  have small : (-e).toNat % 2 ^ 32 = (-e).toNat := Nat.mod_eq_of_lt (by omega)
  rw [parse_eq, split, Option.bind_some, length, small]
  by_cases deep : maxScale < (-e).toNat
  · rw [if_pos deep, if_pos (.inl deep)]
  rw [if_neg deep]
  by_cases large : 2 ^ 127 ≤ m.natAbs * 10 ^ e.toNat
  · rw [if_pos (.inr large)]
    cases read : mantissaOf (whole ++ fraction) with
    | none => rfl
    | some units =>
      have bound := (mantissaOf_fits read).2
      rw [mantissaOf_eq read, value] at bound
      omega
  · rw [if_neg (not_or.mpr ⟨deep, large⟩), mantissaOf_small (by rw [value]; omega), value, Option.map_some]
    congr 2
    by_cases negative : m < 0
    · rw [if_pos (decide_eq_true negative), Nat.cast_mul, ← neg_mul]
      simp [Int.ofNat_natAbs_of_nonpos negative.le]
    · rw [if_neg (by simpa using negative), Nat.cast_mul, Int.natAbs_of_nonneg (not_lt.mp negative)]
      simp

end

section
variable {properties : Properties} {key origin : String}

def held (properties : Properties) (key : String) : Option PropertyValue := (properties.lookup key).map Prod.fst

theorem lookup_cons_eq {β : Type} (x : String × β) (rest : List (String × β)) :
    (x :: rest).lookup key = if key = x.1 then some x.2 else rest.lookup key := by
  rw [lookup_cons]
  by_cases same : key = x.1
  · rw [beq_iff_eq.mpr same, if_pos same]
  · rw [beq_false_of_ne same, if_neg same]

theorem held_setProperty (name : String) (v : PropertyValue) :
    held (setProperty name v origin properties) key = if key = name then some v else held properties key := by
  unfold held
  induction properties with
  | nil =>
    rw [setProperty, lookup_cons_eq]
    split_ifs <;> rfl
  | cons x rest ih =>
    rw [setProperty]
    by_cases low : name < x.1
    · rw [if_pos low, lookup_cons_eq]
      split_ifs <;> rfl
    · rw [if_neg low]
      by_cases named : name = x.1
      · rw [if_pos named, lookup_cons_eq, lookup_cons_eq, named]
        split_ifs <;> rfl
      · rw [if_neg named, lookup_cons_eq, lookup_cons_eq, apply_ite (Option.map Prod.fst), ih]
        by_cases same : key = x.1
        · rw [if_pos same, if_neg (same.trans_ne (Ne.symm named)), if_pos same]
        · rw [if_neg same, if_neg same]

theorem setAll_append (first second : List Pair) :
    setAll origin (first ++ second) properties = setAll origin second (setAll origin first properties) :=
  foldl_append

theorem held_setAll {pairs : List Pair} (others : ∀ x ∈ pairs, x.1 ≠ key) :
    held (setAll origin pairs properties) key = held properties key := by
  induction pairs generalizing properties with
  | nil => rfl
  | cons x rest ih =>
    obtain ⟨other, others⟩ := forall_mem_cons.mp others
    change held (setAll origin rest (setProperty x.1 x.2 origin properties)) key = _
    rw [ih others, held_setProperty, if_neg (Ne.symm other)]

theorem key_optional {name : String} {found : Option String} {x : Pair} (other : name ≠ key)
    (inside : x ∈ Project.optional name found) : x.1 ≠ key := by
  obtain ⟨_, -, rfl⟩ := Option.map_eq_some_iff.mp (Option.mem_toList.mp inside)
  exact other

theorem key_campaign {c : Wire.CampaignParameters} {x : Pair} (inside : x ∈ Project.campaignProperties c) :
    x.1 ≠ "value" := by
  simp only [Project.campaignProperties, mem_append] at inside
  rcases inside with ((((inside | inside) | inside) | inside) | inside) | inside <;>
    exact key_optional (by decide) inside

theorem key_facts {e : Envelope} {x : Pair} (inside : x ∈ Project.envelopeFacts e) : x.1 ≠ "value" := by
  simp only [Project.envelopeFacts, mem_append] at inside
  rcases inside with ((inside | inside) | inside) | inside
  · exact key_optional (by decide) inside
  · exact key_optional (by decide) inside
  · exact key_optional (by decide) inside
  · cases consent : e.consent with
    | none => simp [consent] at inside
    | some c =>
      simp only [consent, Option.map_some, Option.getD_some, mem_append, mem_cons, not_mem_nil,
        or_false] at inside
      rcases inside with (rfl | rfl) | inside
      · simp [Project.text]
      · simp [Project.text]
      · exact key_optional (by decide) inside

theorem key_derived {pr : Projector} {t : Project.Touch} {x : Pair} (inside : x ∈ Project.derivedProperties pr t) :
    x.1 ≠ "value" := by
  simp only [Project.derivedProperties, mem_append, mem_cons, not_mem_nil, or_false] at inside
  rcases inside with (rfl | rfl) | inside
  · simp [Project.text]
  · simp
  · exact key_optional (by decide) inside

theorem held_payload {pr : Projector} (c : ConversionPayload) :
    held (setAll origin (Project.payloadProperties pr (.conversion c)) properties) "value" =
      (c.value.map fun d => PropertyValue.decimal (decimalText d.exponent d.mantissa)).or (held properties "value") := by
  have apart : Project.payloadProperties pr (.conversion c) =
      (Project.text "goal" c.goal :: (c.value.map (Project.decimalProperty "value")).toList) ++
        (Project.optional "currency" c.currency ++ (Project.optional "order_id" c.orderId ++
          ((c.campaign.map Project.campaignProperties).getD [] ++
            Project.optional "touch_event_id" (c.touchEventId.map hex)))) := by
    simp [Project.payloadProperties]
  rw [apart, setAll_append, held_setAll]
  · change held (setAll origin _ (setProperty "goal" (.text c.goal) origin properties)) "value" = _
    cases c.value with
    | none => exact held_setProperty _ _
    | some d => exact held_setProperty _ _
  · intro x inside
    simp only [mem_append] at inside
    rcases inside with inside | inside | inside | inside
    · exact key_optional (by decide) inside
    · exact key_optional (by decide) inside
    · cases campaign : c.campaign with
      | none => simp [campaign] at inside
      | some c => exact key_campaign (by simpa [campaign] using inside)
    · exact key_optional (by decide) inside

theorem held_foldlM {α : Type} {add : Properties → α → Except String Properties} {name : α → String}
    {read : α → Except String Wire.Value} (puts : ∀ ps a qs, add ps a = .ok qs → ∃ v, read a = .ok v ∧
      held qs key = if key = name a then some (toStoreValue v) else held ps key)
    {xs : List α} {after : Properties} (ran : xs.foldlM add properties = .ok after) :
    held after key = (((xs.reverse.find? (name · = key)).bind fun a => (read a).toOption).map toStoreValue).or
      (held properties key) := by
  induction xs using List.reverseRecOn generalizing after with
  | nil =>
    cases ran
    rfl
  | append_singleton xs x ih =>
    rw [foldlM_append] at ran
    obtain ⟨before, first, last⟩ := bind_eq_ok.mp ran
    rw [foldlM_cons] at last
    obtain ⟨next, added, done⟩ := bind_eq_ok.mp last
    cases done
    obtain ⟨v, found, put⟩ := puts before x after added
    rw [put, ih first, reverse_append, reverse_singleton, singleton_append, find?_cons]
    by_cases same : key = name x
    · simp [same, found, Except.toOption]
    · simp [same, Ne.symm same]

def lastSent (e : Envelope) (key : String) : Option Wire.Value :=
  (((e.measurements.getD []).reverse.find? (·.key = key)).bind fun m => (Wire.readMeasurement m).toOption).or
    ((e.properties.reverse.find? (·.key = key)).bind fun p => (Wire.read p.value).toOption)

variable {pr : Projector} {item : TelemetryItem} {row : EventRow}

theorem conversion_carried {p : Project.Payload} (carried : Project.payload item = .ok p)
    (kind : item.envelope.kind = .conversion) : ∃ c, item.conversion = some c ∧ p = .conversion c := by
  unfold Project.payload at carried
  rw [kind] at carried
  split at carried
  · cases carried
  · rename_i found one
    have only := Project.fields_of_present one
    dsimp only at carried
    split at carried
    · cases carried
    rename_i declared
    rw [← not_not.mp declared] at only
    have first := Project.elim_eq_ok.mp carried
    clear one carried declared
    -- every field but the conversion is empty
    simp [Project.fields, Wire.kindName] at only
    simp [Project.firstPayload, only] at first
    obtain ⟨c, held, rfl⟩ := first
    exact ⟨c, held, rfl⟩
  · cases carried

theorem unit_name (key : String) : s!"{key}_unit" ≠ "value" := by
  intro same
  change key ++ "_unit" = "value" at same
  have last := congrArg (fun text => text.toList.getLast?) same
  simp [String.toList_append] at last

/-- The value that a conversion's row holds is its payload's, or else the last one its envelope carries. -/
theorem held_value (projected : Project.project pr item = .ok row) (kind : item.envelope.kind = .conversion) :
    held row.properties "value" = ((item.conversion.bind fun c => c.value).map fun d =>
        PropertyValue.decimal (decimalText d.exponent d.mantissa)).or
      ((lastSent item.envelope "value").map toStoreValue) := by
  unfold Project.project at projected
  obtain ⟨eventId, -, projected⟩ := bind_eq_ok.mp projected
  obtain ⟨p, carried, projected⟩ := bind_eq_ok.mp projected
  obtain ⟨workspaceId, -, projected⟩ := bind_eq_ok.mp projected
  obtain ⟨projectId, -, projected⟩ := bind_eq_ok.mp projected
  obtain ⟨properties, told, projected⟩ := bind_eq_ok.mp projected
  cases projected
  obtain ⟨c, found, rfl⟩ := conversion_carried carried kind
  unfold Project.propertiesOf at told
  obtain ⟨sent, first, told⟩ := bind_eq_ok.mp told
  obtain ⟨measured, second, told⟩ := bind_eq_ok.mp told
  have start : held (setAll "client" (Project.envelopeFacts item.envelope) []) "value" = none := by
    exact held_setAll fun x => key_facts
  have fromProperties := @held_foldlM _ "value" _ _ (·.key) (fun p => Wire.read p.value) (fun ps a qs added => by
    obtain ⟨⟨value, origin⟩, read, put⟩ := bind_eq_ok.mp added
    cases put
    unfold Project.projectProperty at read
    cases value' : Wire.read a.value with
    | error reason => simp [value'] at read
    | ok v =>
      simp only [value', Except.ok.injEq, Prod.mk.injEq] at read
      obtain ⟨rfl, rfl⟩ := read
      exact ⟨v, rfl, held_setProperty _ _⟩) _ _ first
  have fromMeasurements := @held_foldlM _ "value" _ _ (·.key) Wire.readMeasurement (fun ps a qs added => by
    obtain ⟨v, read, put⟩ := bind_eq_ok.mp added
    cases put
    refine ⟨v, read, ?_⟩
    cases a.unit with
    | none => exact held_setProperty _ _
    | some unit =>
      rw [Option.map_some, Option.getD_some, held_setProperty, if_neg (Ne.symm (unit_name a.key))]
      exact held_setProperty _ _) _ _ second
  have own := @held_payload measured "client" pr c
  rw [fromMeasurements, fromProperties, start, Option.or_none] at own
  have done := Except.ok.inj told
  have kept : held properties "value" = held (setAll "client" (Project.payloadProperties pr (.conversion c)) measured)
      "value" := by
    rw [← done]
    split_ifs
    · exact held_setAll fun x => key_derived
    · rfl
  rw [kept, own, found, Option.bind_some, lastSent, Option.map_or]

end

section

def carried (item : TelemetryItem) : ℚ :=
  ((item.conversion.bind fun c => c.value).map fun d => (d.mantissa : ℚ) * 10 ^ d.exponent).getD 0

def Credited (item : TelemetryItem) (row : EventRow) : Prop :=
  ∃ amount, valueOf row = .ok amount ∧ amount.value = carried item

def ReadsZero : Wire.Value → Prop
  | .integer v => v = 0
  | .unsigned v => v = 0
  | .decimal exponent mantissa => mantissa = 0 ∧ -(maxScale : Int) ≤ exponent
  | _ => False

/-- The value has at most the decimal places that a division works with, and is not the one integer whose digits do
not fit beside its sign. Without a value the envelope sends none either, or a zero. -/
def Creditable (item : TelemetryItem) : Prop :=
  match item.conversion.bind fun c => c.value with
  | some d => -(maxScale : Int) ≤ d.exponent ∧ d.mantissa ≠ -2 ^ 127
  | none => ∀ v, lastSent item.envelope "value" = some v → ReadsZero v

variable {i : Commit.Ingest} {permitted : Option Policy.Source} {item : TelemetryItem} {row : EventRow}

def amountOf : Option PropertyValue → Option Amount
  | none => some .zero
  | some (.decimal text) => Amount.parse text
  | some (.integer v) => some ⟨v, 0⟩
  | some (.unsigned v) => some ⟨v, 0⟩
  | _ => none

theorem heldValueOf_eq_ok {amount : Amount} :
    heldValueOf row = .ok amount ↔ amountOf (held row.properties "value") = some amount := by
  unfold heldValueOf held
  cases row.properties.lookup "value" with
  | none => simp [amountOf]
  | some found =>
    obtain ⟨v, origin⟩ := found
    cases v with
    | decimal text =>
      change (Amount.parse text).elim _ Except.ok = _ ↔ Amount.parse text = some amount
      cases Amount.parse text <;> simp
    | _ => simp [amountOf]

theorem valueOf_eq_ok {amount : Amount} : valueOf row = .ok amount ↔
    amountOf (held row.properties "value") = some amount ∧ amount.units.natAbs < 10 ^ (24 + amount.scale) := by
  have few : ∀ found : Amount, ¬ maxValueDigits < ((toString found.units.natAbs).length - found.scale : Nat) ↔
      found.units.natAbs < 10 ^ (24 + found.scale) := by
    intro found
    rw [← Nat.length_repr_le_iff (by omega), Nat.toString_eq_repr, maxValueDigits]
    omega
  unfold valueOf
  rw [bind_eq_ok]
  constructor
  · rintro ⟨found, read, kept⟩
    split_ifs at kept with many
    cases kept
    exact ⟨heldValueOf_eq_ok.mp read, (few amount).mp many⟩
  · rintro ⟨read, fits⟩
    refine ⟨amount, heldValueOf_eq_ok.mpr read, ?_⟩
    rw [if_neg ((few amount).mpr fits)]
    rfl

theorem checkAmount_ok {named : String} {d : CsilDecimal} (checked : Commit.checkAmount named d = .ok ()) :
    checkDecimal d.exponent = .ok () ∧ d.mantissa.natAbs * 10 ^ d.exponent.toNat < 10 ^ (24 + (-d.exponent).toNat) := by
  unfold Commit.checkAmount at checked
  obtain ⟨_, range, bound⟩ := bind_eq_ok.mp checked
  refine ⟨range, ?_⟩
  split_ifs at bound with large
  by_cases zero : d.mantissa = 0
  · simp [zero]
  have few : (toString d.mantissa.natAbs).length + d.exponent ≤ 24 := by
    simpa [zero, maxValueDigits] using large
  rw [Nat.toString_eq_repr] at few
  have some_digit := Nat.length_repr_pos (n := d.mantissa.natAbs)
  have small := (Nat.length_repr_le_iff (n := d.mantissa.natAbs) (k := (24 - d.exponent).toNat) (by omega)).mp (by omega)
  calc d.mantissa.natAbs * 10 ^ d.exponent.toNat < 10 ^ (24 - d.exponent).toNat * 10 ^ d.exponent.toNat :=
        (Nat.mul_lt_mul_right (by positivity)).mpr small
    _ = 10 ^ (24 + (-d.exponent).toNat) := by
        rw [← pow_add]
        congr 1
        omega

theorem value_moved (e m : Int) : Amount.value ⟨m * 10 ^ e.toNat, (-e).toNat⟩ = (m : ℚ) * 10 ^ e := by
  unfold Amount.value
  rcases le_total 0 e with up | down
  · obtain ⟨n, rfl⟩ := Int.eq_ofNat_of_zero_le up
    simp
  · obtain ⟨n, rfl⟩ := Int.exists_eq_neg_ofNat down
    simp [div_eq_mul_inv]

theorem credited_of_payload {d : CsilDecimal} (checked : Commit.checkAmount "value of this conversion" d = .ok ())
    (typed : InI128 d.mantissa) : (∃ amount : Amount, (Amount.parse (decimalText d.exponent d.mantissa) = some amount ∧
        amount.units.natAbs < 10 ^ (24 + amount.scale)) ∧ amount.value = (d.mantissa : ℚ) * 10 ^ d.exponent) ↔
      -(maxScale : Int) ≤ d.exponent ∧ d.mantissa ≠ -2 ^ 127 := by
  obtain ⟨range, bound⟩ := checkAmount_ok checked
  rw [parse_decimalText range]
  unfold InI128 at typed
  unfold maxScale
  have whole : 2 ^ 127 ≤ d.mantissa.natAbs * 10 ^ d.exponent.toNat ↔ d.mantissa = -2 ^ 127 := by
    rcases le_or_gt d.exponent 0 with down | up
    · rw [Int.toNat_of_nonpos down, pow_zero, mul_one]
      omega
    · have none : (-d.exponent).toNat = 0 := Int.toNat_of_nonpos (by omega)
      have power : 1 ≤ 10 ^ d.exponent.toNat := Nat.one_le_pow _ _ (by decide)
      rw [none, Nat.add_zero] at bound
      constructor
      · omega
      · intro least
        have size : d.mantissa.natAbs = 2 ^ 127 := by omega
        rw [size] at bound
        omega
  constructor
  · rintro ⟨amount, ⟨read, -⟩, -⟩
    split_ifs at read with refused
    rw [not_or, whole] at refused
    exact ⟨by omega, refused.2⟩
  · rintro ⟨shallow, fits⟩
    refine ⟨_, ⟨if_neg ?_, ?_⟩, value_moved d.exponent d.mantissa⟩
    · rw [whole]
      omega
    · simpa [Int.natAbs_mul, Int.natAbs_pow] using bound

theorem value_eq_zero {amount : Amount} : amount.value = 0 ↔ amount.units = 0 := by
  simp [Amount.value]

theorem credited_of_envelope {sent : Option Wire.Value}
    (ranged : ∀ e m, sent = some (.decimal e m) → checkDecimal e = .ok ()) : (∃ amount : Amount,
      (amountOf (sent.map toStoreValue) = some amount ∧ amount.units.natAbs < 10 ^ (24 + amount.scale)) ∧
        amount.value = 0) ↔ ∀ v, sent = some v → ReadsZero v := by
  have zero : ∀ found : Option Amount, (∃ amount, (found = some amount ∧
      amount.units.natAbs < 10 ^ (24 + amount.scale)) ∧ amount.value = 0) ↔ ∃ scale, found = some ⟨0, scale⟩ := by
    intro found
    simp only [value_eq_zero]
    constructor
    · rintro ⟨⟨units, scale⟩, ⟨rfl, -⟩, rfl⟩
      exact ⟨scale, rfl⟩
    · rintro ⟨scale, rfl⟩
      exact ⟨⟨0, scale⟩, ⟨rfl, by simp⟩, rfl⟩
  rw [zero]
  cases sent with
  | none => simp [amountOf, Amount.zero]
  | some v =>
    cases v with
    | decimal e m =>
      have range := ranged e m rfl
      simp only [Option.map_some, toStoreValue, amountOf, Option.some.injEq, forall_eq', ReadsZero]
      rw [parse_decimalText range]
      unfold maxScale
      constructor
      · rintro ⟨scale, read⟩
        split_ifs at read with refused
        obtain ⟨none, -⟩ := Amount.mk.injEq .. ▸ Option.some.inj read
        refine ⟨(mul_eq_zero.mp none).resolve_right (by positivity), by omega⟩
      · rintro ⟨rfl, shallow⟩
        refine ⟨(-e).toNat, ?_⟩
        rw [if_neg (by simp; omega), zero_mul]
    | _ => simp [amountOf, toStoreValue, ReadsZero]

section
variable {exponent mantissa : Int}

theorem ok_of_toOption {x : Except String Wire.Value} {v : Wire.Value} (found : x.toOption = some v) : x = .ok v := by
  cases x with
  | error reason => cases found
  | ok held =>
    cases found
    rfl

theorem ranged_of_bind {x : Except String CsilDecimal} (read : (x >>= fun d => checkDecimal d.exponent >>= fun _ =>
    pure (Wire.Value.decimal d.exponent d.mantissa)) = .ok (.decimal exponent mantissa)) :
    checkDecimal exponent = .ok () := by
  obtain ⟨d, -, kept⟩ := bind_eq_ok.mp read
  obtain ⟨_, range, same⟩ := bind_eq_ok.mp kept
  cases same
  exact range

theorem ranged_read {v : Wire.TypedValue} (read : Wire.read v = .ok (.decimal exponent mantissa)) :
    checkDecimal exponent = .ok () := by
  have other {α : Type} {x : Except String α} {f : α → Wire.Value} (apart : ∀ a, f a ≠ .decimal exponent mantissa)
      (mapped : x.map f = .ok (.decimal exponent mantissa)) : False := by
    cases x with
    | error reason => cases mapped
    | ok a => exact apart a (Except.ok.inj mapped)
  unfold Wire.read at read
  split at read
  case h_6 => exact ranged_of_bind read
  case h_1 => cases read
  all_goals exact (other (fun a => Wire.Value.noConfusion) read).elim

theorem ranged_lastSent {e : Envelope} {key : String} (sent : lastSent e key = some (.decimal exponent mantissa)) :
    checkDecimal exponent = .ok () := by
  unfold lastSent at sent
  rcases Option.or_eq_some_iff.mp sent with found | ⟨-, found⟩
  · obtain ⟨m, -, found⟩ := Option.bind_eq_some_iff.mp found
    have read := ok_of_toOption found
    unfold Wire.readMeasurement at read
    split at read
    · cases given : m.floatValue <;> simp [given] at read
    · cases given : m.intValue <;> simp [given] at read
    · exact ranged_of_bind read
  · obtain ⟨p, -, found⟩ := Option.bind_eq_some_iff.mp found
    exact ranged_read (ok_of_toOption found)

end

/-- An accepted conversion is credited with what it says it is worth exactly where its value can be read. -/
theorem accepted_conversion_credited_iff (admitted : i.admitRow permitted item = .ok row)
    (conversion : item.envelope.kind = .conversion)
    (typed : ∀ c d, item.conversion = some c → c.value = some d → InI128 d.mantissa) :
    Credited item row ↔ Creditable item := by
  unfold Commit.Ingest.admitRow at admitted
  split at admitted
  · cases admitted
  rename_i found read
  split_ifs at admitted
  cases admitted
  obtain ⟨_, inRange, projected⟩ := bind_eq_ok.mp read
  obtain ⟨_, checked, -⟩ := bind_eq_ok.mp inRange
  unfold Credited Creditable carried
  simp only [valueOf_eq_ok, held_value projected conversion]
  cases worth : item.conversion.bind fun c => c.value with
  | none => exact credited_of_envelope fun e m => ranged_lastSent
  | some d =>
    obtain ⟨c, there, held⟩ := Option.bind_eq_some_iff.mp worth
    rw [worth] at checked
    exact credited_of_payload checked (typed c d there held)

def priced (exponent mantissa : Int) : TelemetryItem :=
  { Wire.emptyItem { Envelope.bare (List.replicate 16 1) .conversion 1000 with
      workspaceId := some (Id.bytes 1), projectId := some (Id.bytes 2) } with
    conversion := some ⟨"paid", some ⟨exponent, mantissa⟩, none, none, none, none⟩ }

def pricedRow (text : String) : EventRow :=
  { EventRow.new (Id.ofBytes (List.replicate 16 1)) "conversion" "paid" 1000 with
    workspaceId := 1, projectId := 2
    properties := [("goal", .text "paid", "client"), ("value", .decimal text, "client")] }

theorem accepted_conversion_credited_price : Credited (priced (-2) 1999) (pricedRow "19.99") := by
  have admitted : Commit.bareHead.admitRow none (priced (-2) 1999) = .ok (pricedRow "19.99") := by decide +kernel
  refine (accepted_conversion_credited_iff admitted rfl fun c d held worth => ?_).mpr ⟨by decide, by decide⟩
  cases held
  cases worth
  exact ⟨by decide, by decide⟩

/-- The same price with twenty decimal places is stored, and nothing can be credited with it. -/
theorem deep_price_not_credited : ¬ ∀ (intake : Collector.Intake Unit) (i : Commit.Ingest)
    (permitted : Option Policy.Source) (item : TelemetryItem) (row : EventRow), intake.checkItem item = .ok () →
      i.admitRow permitted item = .ok row → item.envelope.kind = .conversion →
      (∀ c d, item.conversion = some c → c.value = some d → InI128 d.mantissa) → Credited item row := by
  intro credited
  have checked : Collector.regional.checkItem (priced (-20) 1999000000000000000000) = .ok () := by decide +kernel
  have admitted : Commit.bareHead.admitRow none (priced (-20) 1999000000000000000000) =
      .ok (pricedRow "19.99000000000000000000") := by decide +kernel
  have refused : (valueOf (pricedRow "19.99000000000000000000")).toOption = none := by decide +kernel
  obtain ⟨amount, read, -⟩ := credited _ _ _ _ _ checked admitted rfl fun c d held worth => by
    cases held
    cases worth
    exact ⟨by decide, by decide⟩
  rw [read] at refused
  cases refused

end

end TallyOwl.Money
