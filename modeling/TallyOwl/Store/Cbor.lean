import Mathlib.Data.List.Sort
import Mathlib.Data.String.Basic
import TallyOwl.Lib.OrderedMap
import TallyOwl.Store.Row

/-! Canonical CBOR (`cbor.rs`): the shortest head for every number, map keys in the
order of their encoded bytes, and a reader that follows a bounded depth. -/
open List TallyOwl.Lib.OrderedMap

namespace TallyOwl.Cbor
open Lib

inductive Value where
  | unsigned (v : Nat)
  | negative (v : Int)
  | bytes (v : Bytes)
  | text (v : String)
  | array (items : List Value)
  | map (entries : List (String × Value))
  | bool (v : Bool)
  | null
  | float (bits : UInt64)
  deriving Inhabited, Repr

namespace Value

def integer (v : Int) : Value := if v < 0 then .negative v else .unsigned v.toNat

def asUnsigned : Value → Option Nat
  | .unsigned v => some v
  | _ => none

def asInteger : Value → Option Int
  | .unsigned v => if v < 2 ^ 63 then some v else none
  | .negative v => some v
  | _ => none

def asText : Value → Option String
  | .text v => some v
  | _ => none

def asBytes : Value → Option Bytes
  | .bytes v => some v
  | _ => none

def asArray : Value → Option (List Value)
  | .array items => some items
  | _ => none

def asMap : Value → Option (List (String × Value))
  | .map entries => some entries
  | _ => none

def field (value : Value) (name : String) : Option Value :=
  value.asMap.bind fun entries => (entries.find? (·.1 = name)).map Prod.snd

end Value

abbrev MapBuilder := OrderedMap String Value

namespace MapBuilder

def put (entries : MapBuilder) (key : String) (value : Value) : MapBuilder :=
  OrderedMap.insert entries key value

def putSome (entries : MapBuilder) (key : String) : Option Value → MapBuilder
  | some value => entries.put key value
  | none => entries

def build (entries : MapBuilder) : Value := .map entries.entries

end MapBuilder

def beBytes (width n : Nat) : Bytes := (leBytes width n).reverse

def beNat (bytes : Bytes) : Nat := leNat bytes.reverse

def head (major argument : Nat) : Bytes :=
  if argument ≤ 23 then [UInt8.ofNat (32 * major + argument)]
  else if argument ≤ 0xff then UInt8.ofNat (32 * major + 24) :: beBytes 1 argument
  else if argument ≤ 0xffff then UInt8.ofNat (32 * major + 25) :: beBytes 2 argument
  else if argument ≤ 0xffffffff then UInt8.ofNat (32 * major + 26) :: beBytes 4 argument
  else UInt8.ofNat (32 * major + 27) :: beBytes 8 argument

def writeText (text : String) : Bytes := head 3 (textBytes text).length ++ textBytes text

/-- Shorter first and then bytewise, which is the order of the encoded keys. -/
def keyLe (a b : String) : Prop :=
  (textBytes a).length < (textBytes b).length ∨
    ((textBytes a).length = (textBytes b).length ∧ textBytes a ≤ textBytes b)

instance (a b : String) : Decidable (keyLe a b) := inferInstanceAs (Decidable (_ ∨ _))

mutual

def write : Value → Bytes
  | .unsigned v => head 0 v
  | .negative v => head 1 ((-1 - v) % 2 ^ 64).toNat
  | .bytes v => head 2 v.length ++ v
  | .text v => writeText v
  | .array items => head 4 items.length ++ writeItems items
  | .map entries => head 5 entries.length ++
      ((writeEntries entries).insertionSort fun a b => keyLe a.1 b.1).flatMap fun e =>
        writeText e.1 ++ e.2
  | .bool v => [if v then 0xf5 else 0xf4]
  | .null => [0xf6]
  | .float bits => 0xfb :: beBytes 8 bits.toNat

def writeItems : List Value → Bytes
  | [] => []
  | item :: items => write item ++ writeItems items

def writeEntries : List (String × Value) → List (String × Bytes)
  | [] => []
  | (key, value) :: entries => (key, write value) :: writeEntries entries

end

def encode (value : Value) : Bytes := write value

structure DecodeError where
  message : String
  offset : Nat
  deriving DecidableEq

def DecodeError.display (e : DecodeError) : String := s!"{e.message} at byte {e.offset}"

section
variable (bytes : Bytes)

def readBe (start width : Nat) : Except DecodeError Nat :=
  match window bytes start width with
  | some found => .ok (beNat found)
  | none => .error ⟨"a number stops early", start⟩

def readArgument (start short : Nat) : Except DecodeError (Nat × Nat) :=
  if short ≤ 23 then .ok (short, start + 1)
  else if short = 24 then (readBe bytes (start + 1) 1).map fun v => (v, start + 2)
  else if short = 25 then (readBe bytes (start + 1) 2).map fun v => (v, start + 3)
  else if short = 26 then (readBe bytes (start + 1) 4).map fun v => (v, start + 5)
  else if short = 27 then (readBe bytes (start + 1) 8).map fun v => (v, start + 9)
  else .error ⟨"the value uses a form this reader refuses", start⟩

section
variable (item : Nat → Except DecodeError (Value × Nat))

def readItems : (count used : Nat) → Except DecodeError (List Value × Nat)
  | 0, used => .ok ([], used)
  | count + 1, used => do
      let (value, next) ← item used
      let (values, last) ← readItems count next
      .ok (value :: values, last)

def readEntries : (count used : Nat) → MapBuilder → Except DecodeError (MapBuilder × Nat)
  | 0, used, entries => .ok (entries, used)
  | count + 1, used, entries => do
      match ← item used with
      | (.text key, next) =>
          let (value, next) ← item next
          readEntries count next (entries.put key value)
      | _ => .error ⟨"a map key is not text", used⟩

end

def readSlice (start used length : Nat) : Except DecodeError Bytes :=
  match window bytes used length with
  | some found => .ok found
  | none => .error ⟨"a value claims more bytes than remain", start⟩

/-- The value behind a head, with `item` the reader one level down. -/
def readBody (item : Nat → Except DecodeError (Value × Nat))
    (start major short argument used : Nat) : Except DecodeError (Value × Nat) :=
  match major with
  | 0 => .ok (.unsigned argument, used)
  | 1 =>
      if argument < 2 ^ 63 then .ok (.negative (-1 - argument), used)
      else .error ⟨"a negative number is larger than this reader holds", start⟩
  | 2 => do
      let found ← readSlice bytes start used argument
      .ok (.bytes found, used + argument)
  | 3 => do
      let found ← readSlice bytes start used argument
      match String.fromUTF8? ⟨found.toArray⟩ with
      | some text => .ok (.text text, used + argument)
      | none => .error ⟨"a text value is not valid text", start⟩
  | 4 =>
      if argument > bytes.length - used then
        .error ⟨"an array claims more items than remain", start⟩
      else do
        let (items, last) ← readItems item argument used
        .ok (.array items, last)
  | 5 =>
      if argument > bytes.length - used then
        .error ⟨"a map claims more entries than remain", start⟩
      else do
        let (entries, last) ← readEntries item argument used ∅
        .ok (entries.build, last)
  | 7 =>
      if short = 20 then .ok (.bool false, used)
      else if short = 21 then .ok (.bool true, used)
      else if short = 22 then .ok (.null, used)
      else if short = 27 then .ok (.float (UInt64.ofNat argument), used)
      else .error ⟨"a simple value this reader does not know", start⟩
  | _ => .error ⟨"a tag this format does not use", start⟩

/-- One value at `start`, in a reader that may still go `left - 1` levels down. -/
def read : (left start : Nat) → Except DecodeError (Value × Nat)
  | 0, start => .error ⟨"the value nests deeper than this reader follows", start⟩
  | left + 1, start =>
      match bytes[start]? with
      | none => .error ⟨"the value stops", start⟩
      | some initial => do
          let (argument, used) ← readArgument bytes start (initial.toNat % 32)
          readBody bytes (read left) start (initial.toNat / 32) (initial.toNat % 32) argument used

end

def maxDepth : Nat := 32

def decode (bytes : Bytes) : Except DecodeError Value := do
  let (value, used) ← read bytes (maxDepth + 1) 0
  if used ≠ bytes.length then .error ⟨"more bytes follow the value", used⟩
  else .ok value

@[simp] theorem length_beBytes (width n : Nat) : (beBytes width n).length = width := by
  simp [beBytes]

theorem beNat_beBytes {width n : Nat} (fits : n < 256 ^ width) : beNat (beBytes width n) = n := by
  rw [beNat, beBytes, reverse_reverse, leNat_leBytes width n fits]

theorem readBe_append (before after : Bytes) (width n : Nat) (fits : n < 256 ^ width) :
    readBe (before ++ (beBytes width n ++ after)) before.length width = .ok n := by
  have found := window_append before (beBytes width n) after
  rw [length_beBytes] at found
  rw [readBe, found]
  exact congrArg Except.ok (beNat_beBytes fits)

theorem readArgument_head {major argument : Nat} (kind : major < 8) (fits : argument < 2 ^ 64) (before after : Bytes) :
    ∃ initial : UInt8, (before ++ (head major argument ++ after))[before.length]? = some initial ∧
      initial.toNat / 32 = major ∧
      readArgument (before ++ (head major argument ++ after)) before.length (initial.toNat % 32) =
        .ok (argument, before.length + (head major argument).length) := by
  have wide : ∀ (short width : Nat), short < 32 → ¬ short ≤ 23 → argument < 256 ^ width →
      ∃ initial : UInt8, (before ++ ((UInt8.ofNat (32 * major + short) ::
          beBytes width argument) ++ after))[before.length]? = some initial ∧
        initial.toNat / 32 = major ∧ initial.toNat % 32 = short ∧
        readBe (before ++ ((UInt8.ofNat (32 * major + short) :: beBytes width argument) ++ after))
          (before.length + 1) width = .ok argument := by
    intro short width small _ room
    have size : (UInt8.ofNat (32 * major + short)).toNat = 32 * major + short := by
      rw [UInt8.toNat_ofNat']
      omega
    refine ⟨UInt8.ofNat (32 * major + short), by simp, by omega, by omega, ?_⟩
    have read := readBe_append (before ++ [UInt8.ofNat (32 * major + short)]) after width argument room
    simpa using read
  unfold head
  split
  · rename_i small
    have size : (UInt8.ofNat (32 * major + argument)).toNat = 32 * major + argument := by
      rw [UInt8.toNat_ofNat']
      omega
    refine ⟨UInt8.ofNat (32 * major + argument), by simp, by omega, ?_⟩
    have short : (UInt8.ofNat (32 * major + argument)).toNat % 32 = argument := by omega
    rw [short, readArgument, if_pos small, length_singleton]
  · split
    · obtain ⟨initial, here, own, short, read⟩ := wide 24 1 (by omega) (by omega) (by omega)
      exact ⟨initial, here, own, by
        rw [short, readArgument, read]
        simp [Except.map]⟩
    · split
      · obtain ⟨initial, here, own, short, read⟩ := wide 25 2 (by omega) (by omega) (by omega)
        exact ⟨initial, here, own, by
        rw [short, readArgument, read]
        simp [Except.map]⟩
      · split
        · obtain ⟨initial, here, own, short, read⟩ := wide 26 4 (by omega) (by omega) (by omega)
          exact ⟨initial, here, own, by
        rw [short, readArgument, read]
        simp [Except.map]⟩
        · obtain ⟨initial, here, own, short, read⟩ := wide 27 8 (by omega) (by omega) (by omega)
          exact ⟨initial, here, own, by
        rw [short, readArgument, read]
        simp [Except.map]⟩

/-- What the types of a value hold, and how deep its containers nest. -/
def Value.Fits : Nat → Value → Prop
  | _, .unsigned v => v < 2 ^ 64
  | _, .negative v => -2 ^ 63 ≤ v ∧ v < 0
  | _, .bytes v => v.length < 2 ^ 64
  | _, .text v => (textBytes v).length < 2 ^ 64
  | 0, .array _ | 0, .map _ => False
  | n + 1, .array items => items.length < 2 ^ 64 ∧ ∀ item ∈ items, item.Fits n
  | n + 1, .map entries => entries.length < 2 ^ 64 ∧ (entries.Pairwise fun a b => a.1 < b.1) ∧
      ∀ e ∈ entries, (textBytes e.1).length < 2 ^ 64 ∧ e.2.Fits n
  | _, .bool _ | _, .null | _, .float _ => True

theorem fromUTF8_textBytes (text : String) : String.fromUTF8? ⟨(textBytes text).toArray⟩ = some text := by
  have same : (⟨(textBytes text).toArray⟩ : ByteArray) = text.toUTF8 := by simp [textBytes]
  rw [same, String.fromUTF8?, dif_pos (show text.toUTF8.IsValidUTF8 from text.isValidUTF8)]
  rfl

theorem textBytes_injective : Function.Injective textBytes := by
  intro a b same
  have back := fromUTF8_textBytes a
  rw [same, fromUTF8_textBytes] at back
  exact (Option.some.inj back).symm

theorem writeItems_eq (items : List Value) : writeItems items = items.flatMap write := by
  induction items with
  | nil => rfl
  | cons item items ih => simp [writeItems, ih]

theorem writeEntries_eq (entries : List (String × Value)) :
    writeEntries entries = entries.map fun e => (e.1, write e.2) := by
  induction entries with
  | nil => rfl
  | cons e entries ih => simp [writeEntries, ih]

theorem length_head_pos (major argument : Nat) : 0 < (head major argument).length := by
  unfold head
  split <;> (try split) <;> (try split) <;> (try split) <;> simp

theorem length_write_pos (value : Value) : 0 < (write value).length := by
  cases value with
  | unsigned v => simpa [write] using length_head_pos 0 v
  | negative v => simpa [write] using length_head_pos 1 _
  | bytes v =>
    have := length_head_pos 2 v.length
    simp only [write, length_append]
    omega
  | text v =>
    have := length_head_pos 3 (textBytes v).length
    simp only [write, writeText, length_append]
    omega
  | array items =>
    have := length_head_pos 4 items.length
    simp only [write, length_append]
    omega
  | map entries =>
    have := length_head_pos 5 entries.length
    simp only [write, length_append]
    omega
  | bool v => simp [write]
  | null => simp [write]
  | float bits => simp [write]


section
variable {bytes : Bytes} {item : Nat → Except DecodeError (Value × Nat)}

/-- The reader returns each of these values wherever its bytes stand. -/
def ReadsBack (bytes : Bytes) (item : Nat → Except DecodeError (Value × Nat)) (v : Value) : Prop :=
  ∀ before after, bytes = before ++ (write v ++ after) →
    item before.length = .ok (v, before.length + (write v).length)

theorem readItems_flatMap (items : List Value) (reads : ∀ v ∈ items, ReadsBack bytes item v)
    (before after : Bytes) (laid : bytes = before ++ (items.flatMap write ++ after)) :
    readItems item items.length before.length = .ok (items, before.length + (items.flatMap write).length) := by
  induction items generalizing before with
  | nil => rfl
  | cons v items ih =>
    have here := reads v mem_cons_self before (items.flatMap write ++ after)
      (by rw [laid, flatMap_cons, append_assoc])
    have rest := ih (fun w inside => reads w (mem_cons_of_mem _ inside)) (before ++ write v)
      (by rw [laid, flatMap_cons]; simp only [append_assoc])
    rw [length_append] at rest
    simp only [readItems, length_cons, here, rest, bind, Except.bind, flatMap_cons,
      length_append, Nat.add_assoc]

theorem readEntries_flatMap (entries : List (String × Value)) (held : MapBuilder)
    (keys : ∀ e ∈ entries, ReadsBack bytes item (.text e.1))
    (values : ∀ e ∈ entries, ReadsBack bytes item e.2) (before after : Bytes)
    (laid : bytes = before ++ (entries.flatMap (fun e => writeText e.1 ++ write e.2) ++ after)) :
    readEntries item entries.length before.length held = .ok (entries.foldl (fun m e => m.put e.1 e.2) held,
        before.length + (entries.flatMap fun e => writeText e.1 ++ write e.2).length) := by
  induction entries generalizing before held with
  | nil => rfl
  | cons e entries ih =>
    have key := keys e mem_cons_self before
      (write e.2 ++ (entries.flatMap (fun e => writeText e.1 ++ write e.2) ++ after))
      (by rw [laid, flatMap_cons]; simp only [write, append_assoc])
    have value := values e mem_cons_self (before ++ write (.text e.1))
      (entries.flatMap (fun e => writeText e.1 ++ write e.2) ++ after)
      (by rw [laid, flatMap_cons]; simp only [write, append_assoc])
    have rest := ih (held.put e.1 e.2) (fun d inside => keys d (mem_cons_of_mem _ inside))
      (fun d inside => values d (mem_cons_of_mem _ inside))
      (before ++ write (.text e.1) ++ write e.2)
      (by rw [laid, flatMap_cons]; simp only [write, append_assoc])
    simp only [length_append, write] at key value rest
    simp only [Nat.add_assoc] at value rest
    simp only [readEntries, length_cons, key, value, rest, bind, Except.bind,
      flatMap_cons, foldl_cons, length_append, Nat.add_assoc]

end

theorem foldl_put_of_perm {entries shuffled : List (String × Value)}
    (ascending : entries.Pairwise fun a b => a.1 < b.1) (perm : shuffled.Perm entries) :
    shuffled.foldl (fun m e => MapBuilder.put m e.1 e.2) ∅ = ⟨entries, ascending⟩ :=
  @ofList_of_perm _ _ _ ⟨entries, ascending⟩ shuffled perm

theorem write_map (entries : List (String × Value)) :
    ∃ shuffled : List (String × Value), shuffled.Perm entries ∧ write (.map entries) =
      head 5 entries.length ++ shuffled.flatMap fun e => writeText e.1 ++ write e.2 := by
  refine ⟨entries.insertionSort fun a b => keyLe a.1 b.1, perm_insertionSort _ _, ?_⟩
  rw [write, writeEntries_eq, ← map_insertionSort (fun a b : String × Value => keyLe a.1 b.1)
    (fun a b : String × Bytes => keyLe a.1 b.1) _ _ fun a _ b _ => Iff.rfl, flatMap_map]

theorem read_head {bytes : Bytes} {major argument : Nat} (kind : major < 8)
    (fits : argument < 2 ^ 64) (n : Nat) (before after : Bytes)
    (laid : bytes = before ++ (head major argument ++ after)) :
    ∃ short, read bytes (n + 1) before.length = readBody bytes (read bytes n) before.length major
      short argument (before.length + (head major argument).length) := by
  obtain ⟨initial, here, own, read⟩ := readArgument_head kind fits before after
  rw [← laid] at here read
  refine ⟨initial.toNat % 32, ?_⟩
  simp only [Cbor.read, here, own, read, bind, Except.bind]

theorem readSlice_append {bytes : Bytes} (before found after : Bytes) (start : Nat)
    (laid : bytes = before ++ (found ++ after)) : readSlice bytes start before.length found.length = .ok found := by
  rw [readSlice, laid, window_append]

theorem read_simple {bytes : Bytes} {short : Nat} (small : short ≤ 23) (n : Nat)
    (before after : Bytes) (laid : bytes = before ++ (UInt8.ofNat (224 + short) :: after)) :
    read bytes (n + 1) before.length =
      readBody bytes (read bytes n) before.length 7 short short (before.length + 1) := by
  have size : (UInt8.ofNat (224 + short)).toNat = 224 + short := by
    rw [UInt8.toNat_ofNat']
    omega
  have major : (224 + short) / 32 = 7 := by omega
  have argument : (224 + short) % 32 = short := by omega
  have here : bytes[before.length]? = some (UInt8.ofNat (224 + short)) := by simp [laid]
  simp only [read, here, size, major, argument, readArgument, if_pos small, bind, Except.bind]

theorem read_float {bytes : Bytes} {bits : UInt64} (n : Nat) (before after : Bytes)
    (laid : bytes = before ++ (write (.float bits) ++ after)) :
    read bytes (n + 1) before.length = .ok (.float bits, before.length + 9) := by
  have here : bytes[before.length]? = some 0xfb := by simp [laid, write]
  have argument : readBe bytes (before.length + 1) 8 = .ok bits.toNat := by
    have read := readBe_append (before ++ [0xfb]) after 8 bits.toNat bits.toNat_lt
    simpa [laid, write] using read
  simp [read, here, readArgument, argument, readBody, bind, Except.bind, Except.map]

theorem read_text {bytes : Bytes} {text : String} (fits : (textBytes text).length < 2 ^ 64) (n : Nat) :
    ReadsBack bytes (read bytes (n + 1)) (.text text) := by
  intro before after laid
  simp only [write, writeText, append_assoc] at laid ⊢
  obtain ⟨short, start⟩ := read_head (by omega) fits n before _ laid
  have slice := @readSlice_append bytes (before ++ head 3 (textBytes text).length) (textBytes text)
    after before.length (by rw [laid, append_assoc])
  rw [length_append] at slice
  rw [start, readBody, slice]
  simp [bind, Except.bind, fromUTF8_textBytes, Nat.add_assoc]

theorem length_le_flatMap {α : Type} {f : α → Bytes} (xs : List α) (some : ∀ x ∈ xs, 0 < (f x).length) :
    xs.length ≤ (xs.flatMap f).length := by
  induction xs with
  | nil => simp
  | cons x xs ih =>
    have first := some x mem_cons_self
    have rest := ih fun y inside => some y (mem_cons_of_mem _ inside)
    simp only [length_cons, flatMap_cons, length_append]
    omega

theorem read_write (n : Nat) (v : Value) (fits : v.Fits n) (bytes : Bytes) :
    ReadsBack bytes (read bytes (n + 1)) v := by
  induction n using Nat.strong_induction_on generalizing v with
  | _ n ih =>
    intro before after laid
    cases v with
    | unsigned v =>
      simp only [write] at laid ⊢
      obtain ⟨short, start⟩ := read_head (by omega) (by simpa [Value.Fits] using fits) n before
        after laid
      rw [start, readBody]
    | negative v =>
      simp only [Value.Fits] at fits
      simp only [write] at laid ⊢
      obtain ⟨short, start⟩ := read_head (by omega) (by omega) n before after laid
      have small : ((-1 - v) % 2 ^ 64).toNat < 2 ^ 63 := by omega
      have back : -1 - (((-1 - v) % 2 ^ 64).toNat : Int) = v := by omega
      rw [start, readBody, if_pos small, back]
    | bytes v =>
      simp only [write, append_assoc] at laid ⊢
      obtain ⟨short, start⟩ := read_head (by omega) (by simpa [Value.Fits] using fits) n before _ laid
      have slice := @readSlice_append bytes (before ++ head 2 v.length) v after before.length
        (by rw [laid, append_assoc])
      rw [length_append] at slice
      rw [start, readBody, slice]
      simp [bind, Except.bind, Nat.add_assoc]
    | text v => exact read_text (by simpa [Value.Fits] using fits) n before after laid
    | array items =>
      cases n with
      | zero => simp [Value.Fits] at fits
      | succ n =>
        obtain ⟨count, inner⟩ := fits
        simp only [write, writeItems_eq, append_assoc] at laid ⊢
        obtain ⟨short, start⟩ := read_head (by omega) count (n + 1) before _ laid
        have loop := @readItems_flatMap bytes (read bytes (n + 1)) items
          (fun v inside => ih n (by omega) v (inner v inside)) (before ++ head 4 items.length)
          after (by rw [laid, append_assoc])
        have room := length_le_flatMap items fun v _ => length_write_pos v
        have enough : ¬ items.length > bytes.length -
            (before.length + (head 4 items.length).length) := by
          rw [laid]
          simp only [length_append]
          omega
        rw [length_append] at loop
        rw [start, readBody, if_neg enough, loop]
        simp [bind, Except.bind, Nat.add_assoc]
    | map entries =>
      cases n with
      | zero => simp [Value.Fits] at fits
      | succ n =>
        obtain ⟨count, ascending, inner⟩ := fits
        obtain ⟨shuffled, perm, written⟩ := write_map entries
        rw [written] at laid ⊢
        rw [append_assoc, ← perm.length_eq] at laid
        rw [← perm.length_eq] at count ⊢
        obtain ⟨short, start⟩ := read_head (by omega) count (n + 1) before _ laid
        have loop := @readEntries_flatMap bytes (read bytes (n + 1)) shuffled ∅
          (fun e inside => read_text (inner e (perm.mem_iff.mp inside)).1 n)
          (fun e inside => ih n (by omega) e.2 (inner e (perm.mem_iff.mp inside)).2)
          (before ++ head 5 shuffled.length) after (by rw [laid, append_assoc])
        have room := length_le_flatMap shuffled (f := fun e => writeText e.1 ++ write e.2)
          fun e _ => by
            have := length_write_pos e.2
            simp only [length_append]
            omega
        have enough : ¬ shuffled.length > bytes.length -
            (before.length + (head 5 shuffled.length).length) := by
          rw [laid]
          simp only [length_append]
          omega
        rw [length_append, foldl_put_of_perm ascending perm] at loop
        rw [start, readBody, if_neg enough, loop]
        simp [bind, Except.bind, MapBuilder.build, Nat.add_assoc]
    | bool v =>
      cases v with
      | false => rw [@read_simple _ 20 (by omega) n before after laid]; rfl
      | true => rw [@read_simple _ 21 (by omega) n before after laid]; rfl
    | null => rw [@read_simple _ 22 (by omega) n before after laid]; rfl
    | float bits => simpa [write] using read_float n before after laid

theorem decode_encode {v : Value} (fits : v.Fits maxDepth) : decode (encode v) = .ok v := by
  have read := read_write maxDepth v fits (write v) [] [] (by simp)
  simp only [length_nil, Nat.zero_add] at read
  rw [decode, encode, read]
  simp [bind, Except.bind]

/-! The same over a value's own bounds: what the types of its parts hold, the sign of its
negatives, and how deep its containers nest. -/

mutual

def Value.Typed : Value → Prop
  | .unsigned v => v < 2 ^ 64
  | .negative v => -2 ^ 63 ≤ v ∧ v < 2 ^ 63
  | .bytes v => v.length < 2 ^ 64
  | .text v => (textBytes v).length < 2 ^ 64
  | .array items => items.length < 2 ^ 64 ∧ TypedItems items
  | .map entries => entries.length < 2 ^ 64 ∧ (entries.Pairwise fun a b => a.1 < b.1) ∧
      TypedEntries entries
  | .bool _ | .null | .float _ => True

def TypedItems : List Value → Prop
  | [] => True
  | item :: items => item.Typed ∧ TypedItems items

def TypedEntries : List (String × Value) → Prop
  | [] => True
  | (key, value) :: entries =>
      (textBytes key).length < 2 ^ 64 ∧ value.Typed ∧ TypedEntries entries

end

mutual

def Value.Signed : Value → Prop
  | .negative v => v < 0
  | .array items => SignedItems items
  | .map entries => SignedEntries entries
  | .unsigned _ | .bytes _ | .text _ | .bool _ | .null | .float _ => True

def SignedItems : List Value → Prop
  | [] => True
  | item :: items => item.Signed ∧ SignedItems items

def SignedEntries : List (String × Value) → Prop
  | [] => True
  | (_, value) :: entries => value.Signed ∧ SignedEntries entries

end

mutual

def Value.depth : Value → Nat
  | .array items => depthItems items + 1
  | .map entries => depthEntries entries + 1
  | .unsigned _ | .negative _ | .bytes _ | .text _ | .bool _ | .null | .float _ => 0

def depthItems : List Value → Nat
  | [] => 0
  | item :: items => max item.depth (depthItems items)

def depthEntries : List (String × Value) → Nat
  | [] => 0
  | (_, value) :: entries => max value.depth (depthEntries entries)

end

section
variable {items : List Value} {entries : List (String × Value)}

theorem TypedItems.mem (typed : TypedItems items) : ∀ v ∈ items, v.Typed := by
  induction items with
  | nil => simp
  | cons item items ih =>
    obtain ⟨first, rest⟩ := typed
    exact forall_mem_cons.mpr ⟨first, ih rest⟩

theorem SignedItems.mem (signed : SignedItems items) : ∀ v ∈ items, v.Signed := by
  induction items with
  | nil => simp
  | cons item items ih =>
    obtain ⟨first, rest⟩ := signed
    exact forall_mem_cons.mpr ⟨first, ih rest⟩

theorem depth_le_depthItems : ∀ v ∈ items, v.depth ≤ depthItems items := by
  induction items with
  | nil => simp
  | cons item items ih =>
    refine forall_mem_cons.mpr ⟨le_max_left _ _, fun v inside => ?_⟩
    exact (ih v inside).trans (le_max_right _ _)

theorem TypedEntries.mem (typed : TypedEntries entries) :
    ∀ e ∈ entries, (textBytes e.1).length < 2 ^ 64 ∧ e.2.Typed := by
  induction entries with
  | nil => simp
  | cons e entries ih =>
    obtain ⟨key, value, rest⟩ := typed
    exact forall_mem_cons.mpr ⟨⟨key, value⟩, ih rest⟩

theorem SignedEntries.mem (signed : SignedEntries entries) : ∀ e ∈ entries, e.2.Signed := by
  induction entries with
  | nil => simp
  | cons e entries ih =>
    obtain ⟨first, rest⟩ := signed
    exact forall_mem_cons.mpr ⟨first, ih rest⟩

theorem depth_le_depthEntries : ∀ e ∈ entries, e.2.depth ≤ depthEntries entries := by
  induction entries with
  | nil => simp
  | cons e entries ih =>
    refine forall_mem_cons.mpr ⟨le_max_left _ _, fun d inside => ?_⟩
    exact (ih d inside).trans (le_max_right _ _)

end

theorem Value.fits_of_depth {n : Nat} {v : Value} (typed : v.Typed) (signed : v.Signed)
    (nested : v.depth ≤ n) : v.Fits n := by
  induction n generalizing v with
  | zero =>
    cases v with
    | array items => simp [Value.depth] at nested
    | map entries => simp [Value.depth] at nested
    | negative v => exact ⟨typed.1, signed⟩
    | unsigned v => simpa [Value.Fits, Value.Typed] using typed
    | bytes v => simpa [Value.Fits, Value.Typed] using typed
    | text v => simpa [Value.Fits, Value.Typed] using typed
    | _ => simp [Value.Fits]
  | succ n ih =>
    cases v with
    | array items =>
      simp only [Value.depth, Nat.add_le_add_iff_right] at nested
      refine ⟨typed.1, fun v inside => ih (typed.2.mem v inside)
        (SignedItems.mem signed v inside) ((depth_le_depthItems v inside).trans nested)⟩
    | map entries =>
      simp only [Value.depth, Nat.add_le_add_iff_right] at nested
      refine ⟨typed.1, typed.2.1, fun e inside => ⟨(typed.2.2.mem e inside).1, ?_⟩⟩
      exact ih (typed.2.2.mem e inside).2 (SignedEntries.mem signed e inside)
        ((depth_le_depthEntries e inside).trans nested)
    | negative v => exact ⟨typed.1, signed⟩
    | unsigned v => simpa [Value.Fits, Value.Typed] using typed
    | bytes v => simpa [Value.Fits, Value.Typed] using typed
    | text v => simpa [Value.Fits, Value.Typed] using typed
    | _ => simp [Value.Fits]

/-- A value with negatives below zero and at most the reader's depth of containers
decodes to itself, so no two of them share their bytes. -/
theorem decode_undoes_encode : (∀ v : Value, v.Typed → v.Signed → v.depth ≤ maxDepth → decode (encode v) = .ok v) ∧
      ∀ v w : Value, v.Typed → v.Signed → v.depth ≤ maxDepth →
        w.Typed → w.Signed → w.depth ≤ maxDepth → encode v = encode w → v = w := by
  have back : ∀ v : Value, v.Typed → v.Signed → v.depth ≤ maxDepth →
      decode (encode v) = .ok v := by
    intro v typed signed nested
    exact decode_encode (Value.fits_of_depth typed signed nested)
  refine ⟨back, ?_⟩
  intro v w typed signed nested typed' signed' nested' same
  have first := back v typed signed nested
  rw [same, back w typed' signed' nested'] at first
  exact (Except.ok.inj first).symm

/-- A map with a negative and a nested array comes back. -/
theorem decode_undoes_encode_nested : decode (encode (.map [("a", .negative (-3)), ("b", .array [.null, .float 0])])) =
      .ok (.map [("a", .negative (-3)), ("b", .array [.null, .float 0])]) := by
  refine decode_undoes_encode.1 _ ?_ ?_ ?_
  · simp only [Value.Typed, TypedEntries, TypedItems, List.pairwise_cons]
    decide
  · simp [Value.Signed, SignedEntries, SignedItems]
  · decide

end TallyOwl.Cbor
