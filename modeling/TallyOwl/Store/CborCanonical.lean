import TallyOwl.Store.Cbor

/-! The canonical form of the CBOR writer (`cbor.rs`). Of the forms a head may have, the writer
takes the shortest, and it writes the keys of a map in the order of their encoded bytes, which
is what its comparator of lengths and bytes says. -/
namespace TallyOwl.Cbor
open Lib List

/-! Bytes in the order of the numbers they are. -/

theorem append_lt_append {a b : Bytes} (same : a.length = b.length) (less : a < b) (x y : Bytes) : a ++ x < b ++ y := by
  induction a generalizing b with
  | nil =>
    have empty := eq_nil_of_length_eq_zero same.symm
    rw [empty] at less
    exact absurd less (List.lt_irrefl _)
  | cons h a ih =>
    cases b with
    | nil => cases same
    | cons h' b =>
      rw [cons_append, cons_append]
      rcases cons_lt_cons_iff.mp less with first | ⟨rfl, later⟩
      · exact cons_lt_cons_iff.mpr (.inl first)
      · exact cons_lt_cons_iff.mpr (.inr ⟨rfl, ih (Nat.succ.inj same) later⟩)

theorem ofNat_lt_ofNat {n m : Nat} (less : n < m) (small : m < 256) : UInt8.ofNat n < UInt8.ofNat m := by
  have inside : n < 256 := less.trans small
  rw [UInt8.lt_iff_toNat_lt, UInt8.toNat_ofNat_of_lt' inside, UInt8.toNat_ofNat_of_lt' small]
  exact less

theorem beBytes_succ (width n : Nat) : beBytes (width + 1) n = beBytes width (n / 256) ++ [UInt8.ofNat (n % 256)] := by
  rw [beBytes, leBytes, reverse_cons, beBytes]

theorem beBytes_lt {width n m : Nat} (less : n < m) (fits : m < 256 ^ width) : beBytes width n < beBytes width m := by
  induction width generalizing n m with
  | zero => simp at fits; omega
  | succ width ih =>
    rw [pow_succ] at fits
    rw [beBytes_succ, beBytes_succ]
    have high : n / 256 < m / 256 ∨ n / 256 = m / 256 ∧ n % 256 < m % 256 := by omega
    rcases high with first | ⟨same, last⟩
    · exact append_lt_append (by simp) (ih first (Nat.div_lt_of_lt_mul (by omega))) _ _
    · rw [same]
      exact append_left_lt
        (cons_lt_cons_iff.mpr (.inl (ofNat_lt_ofNat last (Nat.mod_lt _ (by omega)))))

/-! The forms of a head. -/

/-- The low bits of the first byte of a head, and the bytes behind it. -/
def headParts (argument : Nat) : Nat × Bytes :=
  if argument ≤ 23 then (argument, [])
  else if argument ≤ 0xff then (24, beBytes 1 argument)
  else if argument ≤ 0xffff then (25, beBytes 2 argument)
  else if argument ≤ 0xffffffff then (26, beBytes 4 argument)
  else (27, beBytes 8 argument)

theorem head_eq (major argument : Nat) :
    head major argument = UInt8.ofNat (32 * major + (headParts argument).1) :: (headParts argument).2 := by
  unfold head headParts
  split_ifs <;> rfl

theorem headParts_lt {n m : Nat} (less : n < m) (fits : m < 2 ^ 64) :
    (headParts n).1 < (headParts m).1 ∨ (headParts n).1 = (headParts m).1 ∧
      (headParts n).2.length = (headParts m).2.length ∧ (headParts n).2 < (headParts m).2 := by
  unfold headParts
  -- Either the class of the argument grows, or its bytes do.
  split_ifs <;> first
    | omega
    | exact .inl (by simp only; omega)
    | exact .inr ⟨rfl, by simp, beBytes_lt less (by omega)⟩

theorem head_lt {major n m : Nat} (kind : major < 8) (less : n < m) (fits : m < 2 ^ 64) (x y : Bytes) :
    head major n ++ x < head major m ++ y := by
  have low : (headParts m).1 < 32 := by
    unfold headParts
    split_ifs <;> simp only <;> omega
  rw [head_eq, head_eq, cons_append, cons_append, cons_lt_cons_iff]
  rcases headParts_lt less fits with short | ⟨short, same, rest⟩
  · exact .inl (ofNat_lt_ofNat (by omega) (by omega))
  · exact .inr ⟨by rw [short], append_lt_append same rest x y⟩

theorem keyLe_iff {a b : String} (first : (textBytes a).length < 2 ^ 64)
    (second : (textBytes b).length < 2 ^ 64) : keyLe a b ↔ writeText a ≤ writeText b := by
  unfold keyLe writeText
  have order : ∀ n m x y, n < m → m < 2 ^ 64 → head 3 n ++ x < head 3 m ++ y :=
    fun n m x y less fits => head_lt (by omega) less fits x y
  rcases Nat.lt_trichotomy (textBytes a).length (textBytes b).length with less | same | more
  · exact iff_of_true (.inl less) (List.le_of_lt (order _ _ _ _ less second))
  · rw [same]
    simp only [Nat.lt_irrefl, false_or, true_and]
    constructor
    · exact append_left_le
    · intro below above
      exact below (append_left_lt above)
  · refine iff_of_false ?_ fun below => below (order _ _ _ _ more first)
    rintro (less | ⟨same, -⟩) <;> omega

theorem writeText_injective {a b : String} (first : (textBytes a).length < 2 ^ 64)
    (second : (textBytes b).length < 2 ^ 64) (same : writeText a = writeText b) : a = b := by
  have below : keyLe a b := (keyLe_iff first second).mpr (same ▸ List.le_refl _)
  have above : keyLe b a := (keyLe_iff second first).mpr (same ▸ List.le_refl _)
  rcases below with less | ⟨size, below⟩
  · rcases above with more | ⟨size, -⟩ <;> omega
  · rcases above with more | ⟨-, above⟩
    · omega
    · exact textBytes_injective (List.le_antisymm below above)

instance : Std.Total (fun a b : String × Bytes => keyLe a.1 b.1) := by
  constructor
  intro a b
  unfold keyLe
  rcases Nat.lt_trichotomy (textBytes a.1).length (textBytes b.1).length with less | same | more
  · exact .inl (.inl less)
  · rcases List.le_total (textBytes a.1) (textBytes b.1) with below | above
    · exact .inl (.inr ⟨same, below⟩)
    · exact .inr (.inr ⟨same.symm, above⟩)
  · exact .inr (.inl more)

instance : IsTrans (String × Bytes) (fun a b => keyLe a.1 b.1) := by
  constructor
  rintro a b c (less | ⟨size, below⟩) (less' | ⟨size', below'⟩)
  · exact .inl (less.trans less')
  · exact .inl (size' ▸ less)
  · exact .inl (size ▸ less')
  · exact .inr ⟨size.trans size', List.le_trans below below'⟩

/-! The canonical form of a value. -/

/-- Every form a head may have: the argument in the low bits of its first byte, or behind it
in one, two, four or eight bytes. -/
def headForms (major argument : Nat) : List Bytes :=
  (if argument ≤ 23 then [[UInt8.ofNat (32 * major + argument)]] else []) ++
    [(24, 1), (25, 2), (26, 4), (27, 8)].filterMap fun form : Nat × Nat =>
      if argument < 256 ^ form.2 then
        some (UInt8.ofNat (32 * major + form.1) :: beBytes form.2 argument)
      else none

def ShortestHead (major argument : Nat) (out : Bytes) : Prop :=
  out ∈ headForms major argument ∧ ∀ form ∈ headForms major argument, out.length ≤ form.length

theorem head_mem_headForms {argument : Nat} (fits : argument < 2 ^ 64) (major : Nat) :
    head major argument ∈ headForms major argument := by
  rw [head_eq]
  unfold headForms headParts
  split_ifs <;> simp <;> omega

theorem headForms_cases {major argument : Nat} {form : Bytes} (found : form ∈ headForms major argument) :
    form = head major argument ∨ (head major argument).length < form.length := by
  rw [head_eq]
  rcases mem_append.mp found with short | wide
  · split at short
    · rename_i small
      left
      rw [headParts, if_pos small]
      exact mem_singleton.mp short
    · cases short
  · obtain ⟨⟨low, width⟩, row, here⟩ := mem_filterMap.mp wide
    dsimp only at here
    split at here
    · rename_i fits
      cases here
      simp only [mem_cons, not_mem_nil, or_false, Prod.mk.injEq] at row
      unfold headParts
      -- A form that is wider than the class of its argument is longer.
      rcases row with ⟨rfl, rfl⟩ | ⟨rfl, rfl⟩ | ⟨rfl, rfl⟩ | ⟨rfl, rfl⟩ <;> split_ifs <;>
        first
          | omega
          | exact .inl rfl
          | (right; simp)
    · cases here

theorem shortestHead_iff {major argument : Nat} (fits : argument < 2 ^ 64) {out : Bytes} :
    ShortestHead major argument out ↔ out = head major argument := by
  constructor
  · rintro ⟨found, shortest⟩
    rcases headForms_cases found with same | longer
    · exact same
    · exact absurd (shortest _ (head_mem_headForms fits major)) (Nat.not_le_of_lt longer)
  · rintro rfl
    refine ⟨head_mem_headForms fits major, fun form found => ?_⟩
    rcases headForms_cases found with same | longer
    · exact le_of_eq (by rw [same])
    · exact longer.le

def CanonicalText (text : String) (out : Bytes) : Prop :=
  ∃ h, ShortestHead 3 (textBytes text).length h ∧ out = h ++ textBytes text

mutual

/-- Bytes in the canonical form of a value: every head is the shortest of its forms, and the
encoded keys of a map ascend strictly. -/
def Canonical : Value → Bytes → Prop
  | .unsigned v, out => ShortestHead 0 v out
  | .negative v, out => ShortestHead 1 ((-1 - v) % 2 ^ 64).toNat out
  | .bytes v, out => ∃ h, ShortestHead 2 v.length h ∧ out = h ++ v
  | .text v, out => CanonicalText v out
  | .array items, out => ∃ h body, ShortestHead 4 items.length h ∧ CanonicalItems items body ∧
      out = h ++ body
  | .map entries, out => ∃ h pairs, ∃ ordered : List (Bytes × Bytes), ShortestHead 5 entries.length h ∧
      CanonicalEntries entries pairs ∧ ordered.Perm pairs ∧
      (ordered.Pairwise fun a b => a.1 < b.1) ∧ out = h ++ ordered.flatMap fun p => p.1 ++ p.2
  | .bool v, out => out = [if v then 0xf5 else 0xf4]
  | .null, out => out = [0xf6]
  | .float bits, out => out = 0xfb :: beBytes 8 bits.toNat

def CanonicalItems : List Value → Bytes → Prop
  | [], out => out = []
  | item :: items, out => ∃ first rest, Canonical item first ∧ CanonicalItems items rest ∧
      out = first ++ rest

def CanonicalEntries : List (String × Value) → List (Bytes × Bytes) → Prop
  | [], pairs => pairs = []
  | (key, value) :: entries, pairs => ∃ first second rest, CanonicalText key first ∧
      Canonical value second ∧ CanonicalEntries entries rest ∧ pairs = (first, second) :: rest

end

theorem canonicalText_iff {text : String} (fits : (textBytes text).length < 2 ^ 64) {out : Bytes} :
    CanonicalText text out ↔ out = writeText text := by
  simp only [CanonicalText, shortestHead_iff fits, exists_eq_left, writeText]

/-- The entries of a map with their keys encoded, in the order of the keys. -/
def writtenPairs (entries : List (String × Bytes)) : List (Bytes × Bytes) :=
  entries.map fun e => (writeText e.1, e.2)

theorem ordered_iff {entries : List (String × Bytes)} (fits : ∀ e ∈ entries, (textBytes e.1).length < 2 ^ 64)
    (apart : entries.Pairwise fun a b => a.1 ≠ b.1) (ordered : List (Bytes × Bytes)) :
    (ordered.Perm (writtenPairs entries) ∧ ordered.Pairwise fun a b => a.1 < b.1) ↔
      ordered = writtenPairs (entries.insertionSort fun a b => keyLe a.1 b.1) := by
  set sorted := entries.insertionSort fun a b => keyLe a.1 b.1
  have perm : sorted.Perm entries := perm_insertionSort _ _
  have ascending : (writtenPairs sorted).Pairwise fun a b => a.1 < b.1 := by
    have below : sorted.Pairwise fun a b => keyLe a.1 b.1 := pairwise_insertionSort _ _
    have differ : sorted.Pairwise fun a b => a.1 ≠ b.1 :=
      apart.perm perm.symm fun unequal => unequal.symm
    rw [writtenPairs, pairwise_map]
    refine (below.and differ).imp_of_mem fun {a b} first second both => ?_
    have inFirst := fits a (perm.mem_iff.mp first)
    have inSecond := fits b (perm.mem_iff.mp second)
    exact Std.lt_of_le_of_ne ((keyLe_iff inFirst inSecond).mp both.1)
      fun same => both.2 (writeText_injective inFirst inSecond same)
  constructor
  · rintro ⟨shuffled, increasing⟩
    refine (shuffled.trans (perm.map _).symm).eq_of_pairwise ?_ increasing ascending
    intro a b _ _ less more
    exact absurd more (List.lt_asymm less)
  · rintro rfl
    exact ⟨perm.map _, ascending⟩

mutual

theorem canonical_iff : (v : Value) → v.Typed → ∀ out, Canonical v out ↔ out = write v
  | .unsigned v, typed, out => by
      rw [Canonical, write, shortestHead_iff typed]
  | .negative v, typed, out => by
      have fits : ((-1 - v) % 2 ^ 64).toNat < 2 ^ 64 := by omega
      rw [Canonical, write, shortestHead_iff fits]
  | .bytes v, typed, out => by
      simp only [Canonical, write, shortestHead_iff (show v.length < 2 ^ 64 from typed), exists_eq_left]
  | .text v, typed, out => by
      rw [Canonical, write, canonicalText_iff typed]
  | .array items, typed, out => by
      simp only [Canonical, write, shortestHead_iff typed.1, canonicalItems_iff items typed.2]
      constructor
      · rintro ⟨h, body, rfl, rfl, rfl⟩
        rfl
      · rintro rfl
        exact ⟨_, _, rfl, rfl, rfl⟩
  | .map entries, typed, out => by
      obtain ⟨count, ascending, each⟩ := typed
      have fits : ∀ e ∈ writeEntries entries, (textBytes e.1).length < 2 ^ 64 := by
        intro e inside
        rw [writeEntries_eq] at inside
        obtain ⟨entry, there, rfl⟩ := mem_map.mp inside
        exact (each.mem entry there).1
      have apart : (writeEntries entries).Pairwise fun a b => a.1 ≠ b.1 := by
        rw [writeEntries_eq, pairwise_map]
        exact ascending.imp fun less => ne_of_lt less
      have order := ordered_iff fits apart
      simp only [Canonical, write, shortestHead_iff count, canonicalEntries_iff entries each]
      constructor
      · rintro ⟨h, pairs, ordered, rfl, rfl, perm, increasing, rfl⟩
        rw [(order ordered).mp ⟨perm, increasing⟩, writtenPairs, flatMap_map]
      · rintro rfl
        obtain ⟨perm, increasing⟩ := (order _).mpr rfl
        refine ⟨_, _, _, rfl, rfl, perm, increasing, ?_⟩
        rw [writtenPairs, flatMap_map]
  | .bool v, _, out => by rw [Canonical, write]
  | .null, _, out => by rw [Canonical, write]
  | .float bits, _, out => by rw [Canonical, write]

theorem canonicalItems_iff : (items : List Value) → TypedItems items →
    ∀ out, CanonicalItems items out ↔ out = writeItems items
  | [], _, out => by rw [CanonicalItems, writeItems]
  | item :: items, typed, out => by
      simp only [CanonicalItems, writeItems, canonical_iff item typed.1,
        canonicalItems_iff items typed.2]
      constructor
      · rintro ⟨first, rest, rfl, rfl, rfl⟩
        rfl
      · rintro rfl
        exact ⟨_, _, rfl, rfl, rfl⟩

theorem canonicalEntries_iff : (entries : List (String × Value)) → TypedEntries entries →
    ∀ pairs, CanonicalEntries entries pairs ↔ pairs = writtenPairs (writeEntries entries)
  | [], _, pairs => by rw [CanonicalEntries, writeEntries, writtenPairs, map_nil]
  | (key, value) :: entries, typed, pairs => by
      simp only [CanonicalEntries, writeEntries, canonicalText_iff typed.1,
        canonical_iff value typed.2.1, canonicalEntries_iff entries typed.2.2, writtenPairs,
        map_cons]
      constructor
      · rintro ⟨first, second, rest, rfl, rfl, rfl, rfl⟩
        rfl
      · rintro rfl
        exact ⟨_, _, _, rfl, rfl, rfl, rfl⟩

end

/-! Equal values. -/

mutual

def Value.Same (float : UInt64 → UInt64 → Prop) : Value → Value → Prop
  | .unsigned a, .unsigned b => a = b
  | .negative a, .negative b => a = b
  | .bytes a, .bytes b => a = b
  | .text a, .text b => a = b
  | .array a, .array b => SameItems float a b
  | .map a, .map b => SameEntries float a b
  | .bool a, .bool b => a = b
  | .null, .null => True
  | .float a, .float b => float a b
  | _, _ => False

def SameItems (float : UInt64 → UInt64 → Prop) : List Value → List Value → Prop
  | [], [] => True
  | a :: as, b :: bs => a.Same float b ∧ SameItems float as bs
  | _, _ => False

def SameEntries (float : UInt64 → UInt64 → Prop) :
    List (String × Value) → List (String × Value) → Prop
  | [], [] => True
  | (key, a) :: as, (key', b) :: bs => key = key' ∧ a.Same float b ∧ SameEntries float as bs
  | _, _ => False

end

/-- `==` of two floats, on their bits: zero has two signs, and what is no number equals
nothing. -/
def floatEq (a b : UInt64) : Prop :=
  ¬IsNaN a ∧ ¬IsNaN b ∧
    (a = b ∨ a.toNat % 2 ^ 63 = 0 ∧ b.toNat % 2 ^ 63 = 0)

instance (a b : UInt64) : Decidable (floatEq a b) := inferInstanceAs (Decidable (_ ∧ _))

mutual

theorem Value.eq_of_same : (a b : Value) → a.Same (· = ·) b → a = b
  | .unsigned _, b, same | .negative _, b, same | .bytes _, b, same | .text _, b, same
  | .bool _, b, same | .null, b, same | .float _, b, same => by
      cases b <;> first
        | exact same.elim
        | (simp only [Value.Same] at same; rw [same])
        | rfl
  | .array as, b, same => by
      cases b with
      | array bs => rw [eq_of_sameItems as bs same]
      | _ => exact same.elim
  | .map as, b, same => by
      cases b with
      | map bs => rw [eq_of_sameEntries as bs same]
      | _ => exact same.elim

theorem eq_of_sameItems : (as bs : List Value) → SameItems (· = ·) as bs → as = bs
  | [], [], _ => rfl
  | [], _ :: _, same => same.elim
  | _ :: _, [], same => same.elim
  | a :: as, b :: bs, same => by
      rw [Value.eq_of_same a b same.1, eq_of_sameItems as bs same.2]

theorem eq_of_sameEntries :
    (as bs : List (String × Value)) → SameEntries (· = ·) as bs → as = bs
  | [], [], _ => rfl
  | [], _ :: _, same => same.elim
  | _ :: _, [], same => same.elim
  | (key, a) :: as, (key', b) :: bs, same => by
      rw [same.1, Value.eq_of_same a b same.2.1, eq_of_sameEntries as bs same.2.2]

end

/-- What is encoded is the one canonical form of its value: shortest heads, and map keys that
ascend strictly in their encoded bytes. Values that are equal, their floats bit by bit, have
the same bytes, and the comparator of two keys is the order of their encoded forms. -/
theorem encoding_is_canonical : (∀ v : Value, v.Typed → ∀ out, Canonical v out ↔ out = encode v) ∧
      (∀ v w : Value, v.Same (· = ·) w → encode v = encode w) ∧
      ∀ a b : String, (textBytes a).length < 2 ^ 64 → (textBytes b).length < 2 ^ 64 →
        (keyLe a b ↔ writeText a ≤ writeText b) := by
  refine ⟨canonical_iff, ?_, fun a b => keyLe_iff⟩
  intro v w same
  rw [Value.eq_of_same v w same]

/-- A short key comes before a long one, whatever its letters. -/
theorem encoding_is_canonical_map : Canonical (.map [("aa", .unsigned 1000), ("b", .array [.null, .negative (-300)])])
        [0xa2, 0x61, 0x62, 0x82, 0xf6, 0x39, 0x01, 0x2b, 0x62, 0x61, 0x61, 0x19, 0x03, 0xe8] ∧
      encode (.map [("b", .float 0)]) = encode (.map [("b", .float 0)]) ∧ writeText "b" ≤ writeText "aa" := by
  refine ⟨(encoding_is_canonical.1 _ ?_ _).mpr rfl, encoding_is_canonical.2.1 _ _ ?_,
    (encoding_is_canonical.2.2 _ _ (by decide) (by decide)).mp (.inl (by decide))⟩
  · simp only [Value.Typed, TypedEntries, TypedItems, List.pairwise_cons]
    decide
  · exact ⟨rfl, rfl, trivial⟩

/-- The two zeros are equal, and each has bytes of its own. -/
theorem zeros_have_two_encodings : (Value.float 0).Same floatEq (.float 0x8000000000000000) ∧
      encode (.float 0) ≠ encode (.float 0x8000000000000000) := by
  have equal : floatEq 0 0x8000000000000000 := by decide
  exact ⟨equal, by decide⟩

end TallyOwl.Cbor
