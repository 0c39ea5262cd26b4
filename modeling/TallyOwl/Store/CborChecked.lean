import TallyOwl.Lib.Checked
import TallyOwl.Store.Cbor

/-! The reader of `cbor.rs` with the sums, ranges and allocations it makes: it stops on
none of them, so it is the exact reader, and what it accepts is typed. -/
namespace TallyOwl.Cbor
open Lib List OrderedMap

section
variable (bytes : Bytes)

def readBeChecked (start width : Nat) : Checked DecodeError Nat :=
  if start > bytes.length then .fail ⟨"a number stops early", start⟩
  else do
    let room ← Checked.minus bytes.length start
    if width > room then .fail ⟨"a number stops early", start⟩
    else do
      let last ← Checked.word (start + width)
      let found ← Checked.part bytes start last
      .ok (beNat found)

/-- The argument behind the first byte of a head, and where it ends. -/
def readWideChecked (start width : Nat) : Checked DecodeError (Nat × Nat) := do
  let first ← Checked.word (start + 1)
  let argument ← readBeChecked bytes first width
  let used ← Checked.word (start + (1 + width))
  .ok (argument, used)

def readArgumentChecked (start short : Nat) : Checked DecodeError (Nat × Nat) :=
  if short ≤ 23 then do
    let used ← Checked.word (start + 1)
    .ok (short, used)
  else if short = 24 then readWideChecked bytes start 1
  else if short = 25 then readWideChecked bytes start 2
  else if short = 26 then readWideChecked bytes start 4
  else if short = 27 then readWideChecked bytes start 8
  else .fail ⟨"the value uses a form this reader refuses", start⟩

section
variable (item : Nat → Checked DecodeError (Value × Nat))

def readItemsChecked : (count used : Nat) → Checked DecodeError (List Value × Nat)
  | 0, used => .ok ([], used)
  | count + 1, used => do
      let (value, next) ← item used
      let (values, last) ← readItemsChecked count next
      .ok (value :: values, last)

def readEntriesChecked : (count used : Nat) → MapBuilder → Checked DecodeError (MapBuilder × Nat)
  | 0, used, entries => .ok (entries, used)
  | count + 1, used, entries => do
      match ← item used with
      | (.text key, next) =>
          let (value, next) ← item next
          readEntriesChecked count next (entries.put key value)
      | _ => .fail ⟨"a map key is not text", used⟩

end

/-- The slice a length claims, compared by a subtraction, and where it ends. -/
def readSliceChecked (start used length : Nat) : Checked DecodeError (Bytes × Nat) :=
  if length > bytes.length - used then .fail ⟨"a value claims more bytes than remain", start⟩
  else do
    let last ← Checked.word (used + length)
    match window bytes used length with
    | some found => .ok (found, last)
    | none => .fail ⟨"a value claims more bytes than remain", start⟩

def readBodyChecked (item : Nat → Checked DecodeError (Value × Nat))
    (start major short argument used : Nat) : Checked DecodeError (Value × Nat) :=
  match major with
  | 0 => .ok (.unsigned argument, used)
  | 1 =>
      if argument < 2 ^ 63 then .ok (.negative (-1 - argument), used)
      else .fail ⟨"a negative number is larger than this reader holds", start⟩
  | 2 => do
      let (found, last) ← readSliceChecked bytes start used argument
      .ok (.bytes found, last)
  | 3 => do
      let (found, last) ← readSliceChecked bytes start used argument
      match String.fromUTF8? ⟨found.toArray⟩ with
      | some text => .ok (.text text, last)
      | none => .fail ⟨"a text value is not valid text", start⟩
  | 4 =>
      if argument > bytes.length - used then
        .fail ⟨"an array claims more items than remain", start⟩
      else do
        Checked.allocate argument bytes.length
        let (items, last) ← readItemsChecked item argument used
        .ok (.array items, last)
  | 5 =>
      if argument > bytes.length - used then
        .fail ⟨"a map claims more entries than remain", start⟩
      else do
        let (entries, last) ← readEntriesChecked item argument used ∅
        .ok (entries.build, last)
  | 7 =>
      if short = 20 then .ok (.bool false, used)
      else if short = 21 then .ok (.bool true, used)
      else if short = 22 then .ok (.null, used)
      else if short = 27 then do
        -- the eight bytes are cut out once more
        let _ ← Checked.word (start + 1)
        let _ ← Checked.word (start + 9)
        .ok (.float (UInt64.ofNat argument), used)
      else .fail ⟨"a simple value this reader does not know", start⟩
  | _ => .fail ⟨"a tag this format does not use", start⟩

def readChecked : (left start : Nat) → Checked DecodeError (Value × Nat)
  | 0, start => .fail ⟨"the value nests deeper than this reader follows", start⟩
  | left + 1, start =>
      match bytes[start]? with
      | none => .fail ⟨"the value stops", start⟩
      | some initial => do
          let (argument, used) ← readArgumentChecked bytes start (initial.toNat % 32)
          readBodyChecked bytes (readChecked left) start (initial.toNat / 32) (initial.toNat % 32)
            argument used

end

def decodeChecked (bytes : Bytes) : Checked DecodeError Value := do
  let (value, used) ← readChecked bytes (maxDepth + 1) 0
  if used ≠ bytes.length then .fail ⟨"more bytes follow the value", used⟩
  else .ok value

section
variable {bytes : Bytes}

theorem readWideChecked_eq (small : bytes.length < 2 ^ 63) {start : Nat} (inside : start < bytes.length)
    (width : Nat) (narrow : width ≤ 8) : readWideChecked bytes start width =
      .lift ((readBe bytes (start + 1) width).map fun v => (v, start + (1 + width))) := by
  have first : start + 1 < 2 ^ 64 := by omega
  have used : start + (1 + width) < 2 ^ 64 := by omega
  simp only [readWideChecked, Checked.word_of_lt first, Checked.word_of_lt used, Checked.ok_bind,
    readBeChecked, if_neg (by omega : ¬ start + 1 > bytes.length), readBe, window, Checked.minus,
    if_pos (by omega : start + 1 ≤ bytes.length)]
  by_cases room : start + 1 + width ≤ bytes.length
  · have last : start + 1 + width < 2 ^ 64 := by omega
    have part : (bytes.take (start + 1 + width)).drop (start + 1) = (bytes.drop (start + 1)).take width := by
      rw [drop_take]
      congr 1
      omega
    rw [if_neg (by omega), Checked.word_of_lt last, Checked.ok_bind,
      Checked.part_of_le (by omega) room, part]
    simp [room, Checked.lift, Except.map]
  · rw [if_pos (by omega)]
    simp [room, Checked.lift, Except.map, Checked.fail, bind, Except.bind]

theorem readArgumentChecked_eq (small : bytes.length < 2 ^ 63) {start : Nat}
    (inside : start < bytes.length) (short : Nat) :
    readArgumentChecked bytes start short = .lift (readArgument bytes start short) := by
  have first : start + 1 < 2 ^ 64 := by omega
  have wide := readWideChecked_eq small inside
  unfold readArgumentChecked readArgument
  rw [wide 1 (by omega), wide 2 (by omega), wide 4 (by omega), wide 8 (by omega),
    Checked.word_of_lt first, Checked.ok_bind]
  split_ifs <;> rfl

theorem readArgument_used {start short argument used : Nat}
    (read : readArgument bytes start short = .ok (argument, used)) : used ≤ start + 9 := by
  have wide : ∀ width last, last ≤ 9 → (readBe bytes (start + 1) width).map (fun v => (v, start + last)) =
      .ok (argument, used) → used ≤ start + 9 := by
    intro width last low found
    cases here : readBe bytes (start + 1) width with
    | error e => simp [here, Except.map] at found
    | ok v =>
      simp only [here, Except.map, Except.ok.injEq, Prod.mk.injEq] at found
      omega
  unfold readArgument at read
  split_ifs at read
  · simp only [Except.ok.injEq, Prod.mk.injEq] at read
    omega
  · exact wide 1 2 (by omega) read
  · exact wide 2 3 (by omega) read
  · exact wide 4 5 (by omega) read
  · exact wide 8 9 (by omega) read

theorem readSliceChecked_eq (small : bytes.length < 2 ^ 63) (start : Nat) {used : Nat}
    (low : used < 2 ^ 64) (length : Nat) : readSliceChecked bytes start used length =
      .lift ((readSlice bytes start used length).map fun found => (found, used + length)) := by
  unfold readSliceChecked readSlice window
  by_cases room : used + length ≤ bytes.length
  · rw [if_neg (by omega), Checked.word_of_lt (by omega)]
    simp [room, Checked.lift, Except.map]
  · by_cases beyond : length > bytes.length - used
    · rw [if_pos beyond]
      simp [room, Checked.lift, Except.map, Checked.fail]
    · obtain rfl : length = 0 := by omega
      rw [if_neg beyond, Checked.word_of_lt (by omega)]
      simp only [Checked.ok_bind, if_neg room]
      rfl

section
variable {item : Nat → Checked DecodeError (Value × Nat)} {read : Nat → Except DecodeError (Value × Nat)}

theorem readItemsChecked_eq (same : ∀ start, item start = .lift (read start)) (count used : Nat) :
    readItemsChecked item count used = .lift (readItems read count used) := by
  induction count generalizing used with
  | zero => rfl
  | succ count ih =>
    simp only [readItemsChecked, readItems, same]
    cases read used with
    | error e => rfl
    | ok found =>
      obtain ⟨value, next⟩ := found
      simp only [Checked.lift, ih next, bind, Except.bind]
      cases readItems read count next <;> rfl

theorem readEntriesChecked_eq (same : ∀ start, item start = .lift (read start)) (count used : Nat)
    (entries : MapBuilder) :
    readEntriesChecked item count used entries = .lift (readEntries read count used entries) := by
  induction count generalizing used entries with
  | zero => rfl
  | succ count ih =>
    simp only [readEntriesChecked, readEntries, same]
    cases read used with
    | error e => rfl
    | ok found =>
      obtain ⟨key, next⟩ := found
      cases key with
      | text key =>
        simp only [Checked.lift, bind, Except.bind]
        cases read next with
        | error e => rfl
        | ok more => exact ih more.2 _
      | _ => rfl

theorem readBodyChecked_eq (small : bytes.length < 2 ^ 63)
    (same : ∀ start, item start = .lift (read start)) {start used : Nat} (inside : start < bytes.length)
    (low : used < 2 ^ 64) (major short argument : Nat) : readBodyChecked bytes item start major short argument used =
      .lift (readBody bytes read start major short argument used) := by
  have slice := readSliceChecked_eq small start low argument
  unfold readBodyChecked readBody
  split
  · rfl
  · split <;> rfl
  · rw [slice]
    cases readSlice bytes start used argument <;> rfl
  · rw [slice]
    cases readSlice bytes start used argument with
    | error e => rfl
    | ok found =>
      simp only [Except.map, Checked.lift, bind, Except.bind]
      cases String.fromUTF8? ⟨found.toArray⟩ <;> rfl
  · split
    · rfl
    · rename_i room
      rw [Checked.allocate_of_le (by omega), Checked.ok_bind, readItemsChecked_eq same]
      cases readItems read argument used <;> rfl
  · split
    · rfl
    · rw [readEntriesChecked_eq same]
      cases readEntries read argument used ∅ <;> rfl
  · rw [Checked.word_of_lt (by omega : start + 1 < 2 ^ 64), Checked.word_of_lt (by omega : start + 9 < 2 ^ 64)]
    split_ifs <;> rfl
  · simp_all [Checked.lift, Checked.fail]

end

theorem readChecked_eq (small : bytes.length < 2 ^ 63) (left start : Nat) :
    readChecked bytes left start = .lift (read bytes left start) := by
  induction left generalizing start with
  | zero => rfl
  | succ left ih =>
    cases found : bytes[start]? with
    | none => simp [readChecked, read, found, Checked.lift, Checked.fail]
    | some initial =>
      have inside := (List.getElem?_eq_some_iff.mp found).1
      simp only [readChecked, read, found, readArgumentChecked_eq small inside]
      cases argument : readArgument bytes start (initial.toNat % 32) with
      | error e => rfl
      | ok pair =>
        have used := readArgument_used argument
        exact readBodyChecked_eq small ih inside (by omega) _ _ _

theorem decodeChecked_eq (small : bytes.length < 2 ^ 63) : decodeChecked bytes = .lift (decode bytes) := by
  rw [decodeChecked, decode, readChecked_eq small]
  cases read bytes (maxDepth + 1) 0 with
  | error e => rfl
  | ok found =>
    simp only [Checked.lift, bind, Except.bind]
    split <;> rfl

end

/-! What the reader accepts. -/

section
variable {bytes : Bytes}

theorem beNat_lt (found : Bytes) : beNat found < 256 ^ found.length := by
  have bound := leNat_lt found.reverse
  rwa [length_reverse] at bound

theorem readArgument_lt {start short argument used : Nat}
    (read : readArgument bytes start short = .ok (argument, used)) : argument < 2 ^ 64 := by
  have wide : ∀ width last, width ≤ 8 → (readBe bytes (start + 1) width).map (fun v => (v, start + last)) =
      .ok (argument, used) → argument < 2 ^ 64 := by
    intro width last narrow found
    unfold readBe at found
    cases here : window bytes (start + 1) width with
    | none => simp [here, Except.map] at found
    | some slice =>
      simp only [here, Except.map, Except.ok.injEq, Prod.mk.injEq] at found
      obtain ⟨rfl, -⟩ := found
      have bound := beNat_lt slice
      rw [length_of_window here] at bound
      exact bound.trans_le (Nat.pow_le_pow_right (by omega) narrow)
  unfold readArgument at read
  split_ifs at read
  · simp only [Except.ok.injEq, Prod.mk.injEq] at read
    omega
  · exact wide 1 2 (by omega) read
  · exact wide 2 3 (by omega) read
  · exact wide 4 5 (by omega) read
  · exact wide 8 9 (by omega) read

theorem textBytes_of_fromUTF8 {found : Bytes} {text : String}
    (read : String.fromUTF8? ⟨found.toArray⟩ = some text) : textBytes text = found := by
  unfold String.fromUTF8? at read
  split at read
  · cases read
    simp [textBytes, String.fromUTF8]
  · cases read

theorem readSlice_length {start used length : Nat} {found : Bytes}
    (read : readSlice bytes start used length = .ok found) : found.length ≤ bytes.length := by
  unfold readSlice at read
  split at read
  · rename_i slice here
    cases read
    have inside := (window_eq_some.mp here).1
    rw [length_of_window here]
    omega
  · cases read

section
variable {item : Nat → Except DecodeError (Value × Nat)}

theorem readItems_typed (typed : ∀ start v used, item start = .ok (v, used) → v.Typed)
    {count used last : Nat} {items : List Value} (read : readItems item count used = .ok (items, last)) :
    items.length = count ∧ TypedItems items := by
  induction count generalizing used items with
  | zero =>
    obtain ⟨rfl, -⟩ := Prod.mk.injEq .. ▸ Except.ok.inj read
    exact ⟨rfl, trivial⟩
  | succ count ih =>
    cases here : item used with
    | error e => simp [readItems, here, bind, Except.bind] at read
    | ok first =>
      cases more : readItems item count first.2 with
      | error e => simp [readItems, here, more, bind, Except.bind] at read
      | ok rest =>
        simp only [readItems, here, more, bind, Except.bind, Except.ok.injEq, Prod.mk.injEq] at read
        obtain ⟨rfl, rfl⟩ := read
        obtain ⟨size, each⟩ := ih more
        exact ⟨by rw [length_cons, size], typed _ _ _ here, each⟩

def TypedMap (entries : MapBuilder) : Prop :=
  ∀ e ∈ entries.entries, (textBytes e.1).length < 2 ^ 64 ∧ e.2.Typed

theorem readEntries_typed (typed : ∀ start v used, item start = .ok (v, used) → v.Typed)
    {count used last : Nat} {held entries : MapBuilder} (before : TypedMap held)
    (read : readEntries item count used held = .ok (entries, last)) :
    entries.entries.length ≤ held.entries.length + count ∧ TypedMap entries := by
  induction count generalizing used held with
  | zero =>
    obtain ⟨rfl, -⟩ := Prod.mk.injEq .. ▸ Except.ok.inj read
    exact ⟨by omega, before⟩
  | succ count ih =>
    cases here : item used with
    | error e => simp [readEntries, here, bind, Except.bind] at read
    | ok first =>
      obtain ⟨key, next⟩ := first
      cases key with
      | text key =>
        cases more : item next with
        | error e => simp [readEntries, here, more, bind, Except.bind] at read
        | ok value =>
          simp only [readEntries, here, more, bind, Except.bind] at read
          have put : TypedMap (held.put key value.1) := by
            intro e inside
            rcases mem_insert.mp inside with rfl | ⟨old, -⟩
            · exact ⟨typed _ _ _ here, typed _ _ _ more⟩
            · exact before e old
          obtain ⟨size, each⟩ := ih put read
          have grown := length_insertEntry_le key value.1 held.entries
          have same : (held.put key value.1).entries = insertEntry key value.1 held.entries := rfl
          rw [same] at size
          exact ⟨by omega, each⟩
      | _ => simp [readEntries, here, bind, Except.bind] at read

end

theorem typedEntries_of_forall {entries : List (String × Value)}
    (each : ∀ e ∈ entries, (textBytes e.1).length < 2 ^ 64 ∧ e.2.Typed) : TypedEntries entries := by
  induction entries with
  | nil => trivial
  | cons e entries ih =>
    obtain ⟨first, rest⟩ := forall_mem_cons.mp each
    exact ⟨first.1, first.2, ih rest⟩

theorem read_typed (small : bytes.length < 2 ^ 63) {left start used : Nat} {v : Value}
    (accepted : read bytes left start = .ok (v, used)) : v.Typed := by
  induction left generalizing start v used with
  | zero => cases accepted
  | succ left ih =>
    cases here : bytes[start]? with
    | none => simp [read, here] at accepted
    | some initial =>
      cases argument : readArgument bytes start (initial.toNat % 32) with
      | error e => simp [read, here, argument, bind, Except.bind] at accepted
      | ok found =>
        have wide := readArgument_lt argument
        simp only [read, here, argument, bind, Except.bind] at accepted
        unfold readBody at accepted
        split at accepted
        · obtain ⟨rfl, -⟩ := Prod.mk.injEq .. ▸ Except.ok.inj accepted
          exact wide
        · split at accepted
          · obtain ⟨rfl, -⟩ := Prod.mk.injEq .. ▸ Except.ok.inj accepted
            exact ⟨by omega, by omega⟩
          · cases accepted
        · cases slice : readSlice bytes start found.2 found.1 with
          | error e => simp [slice, bind, Except.bind] at accepted
          | ok region =>
            simp only [slice, bind, Except.bind, Except.ok.injEq, Prod.mk.injEq] at accepted
            obtain ⟨rfl, -⟩ := accepted
            have bound := readSlice_length slice
            exact show region.length < 2 ^ 64 by omega
        · cases slice : readSlice bytes start found.2 found.1 with
          | error e => simp [slice, bind, Except.bind] at accepted
          | ok region =>
            simp only [slice, bind, Except.bind] at accepted
            split at accepted
            · rename_i text valid
              obtain ⟨rfl, -⟩ := Prod.mk.injEq .. ▸ Except.ok.inj accepted
              have bound := readSlice_length slice
              exact show (textBytes text).length < 2 ^ 64 by
                rw [textBytes_of_fromUTF8 valid]
                omega
            · cases accepted
        · split at accepted
          · cases accepted
          · rename_i room
            cases loop : readItems (read bytes left) found.1 found.2 with
            | error e => simp [loop, bind, Except.bind] at accepted
            | ok rest =>
              simp only [loop, bind, Except.bind, Except.ok.injEq, Prod.mk.injEq] at accepted
              obtain ⟨rfl, -⟩ := accepted
              obtain ⟨size, each⟩ := readItems_typed (fun _ _ _ => ih) loop
              exact ⟨by omega, each⟩
        · split at accepted
          · cases accepted
          · rename_i room
            cases loop : readEntries (read bytes left) found.1 found.2 ∅ with
            | error e => simp [loop, bind, Except.bind] at accepted
            | ok rest =>
              simp only [loop, bind, Except.bind, Except.ok.injEq, Prod.mk.injEq] at accepted
              obtain ⟨rfl, -⟩ := accepted
              obtain ⟨size, each⟩ := readEntries_typed (fun _ _ _ => ih) (by simp [TypedMap]) loop
              simp only [entries_empty, length_nil] at size
              exact ⟨by omega, rest.1.ascending, typedEntries_of_forall each⟩
        · split_ifs at accepted <;> cases accepted <;> trivial
        · cases accepted

theorem decode_typed (small : bytes.length < 2 ^ 63) {v : Value} (accepted : decode bytes = .ok v) : v.Typed := by
  cases first : read bytes (maxDepth + 1) 0 with
  | error e => simp [decode, first, bind, Except.bind] at accepted
  | ok found =>
    simp only [decode, first, bind, Except.bind] at accepted
    split at accepted
    · cases accepted
    · cases accepted
      exact read_typed small first

end

end TallyOwl.Cbor
