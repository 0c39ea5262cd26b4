import TallyOwl.Store.CborSize

/-! The reader of `cbor.rs` with the depth that each of its calls counts, and with every call
logged. It goes at most one level past the deepest nesting it follows, returns at most one
node for each byte, and reports an error inside the bytes. -/
namespace TallyOwl.Cbor
open Lib

/-- A call of the reader, and one that went on past the check of its depth. -/
inductive Call where
  | called (depth : Nat)
  | reads (depth : Nat)
  deriving DecidableEq

abbrev Calls := Logged Call (Stop DecodeError)

def Calls.step {α : Type} (result : Checked DecodeError α) : Calls α := Logged.lift result

section
variable (bytes : Bytes)

section
variable (item : Nat → Calls (Value × Nat))

def readItemsCalls : (count used : Nat) → Calls (List Value × Nat)
  | 0, used => pure ([], used)
  | count + 1, used => do
      let (value, next) ← item used
      let (values, last) ← readItemsCalls count next
      pure (value :: values, last)

def readEntriesCalls : (count used : Nat) → MapBuilder → Calls (MapBuilder × Nat)
  | 0, used, entries => pure (entries, used)
  | count + 1, used, entries => do
      match ← item used with
      | (.text key, next) =>
          let (value, next) ← item next
          readEntriesCalls count next (entries.put key value)
      | _ => Calls.step (.fail ⟨"a map key is not text", used⟩)

end

/-- `-1 - argument`, as an `i64`. -/
def negated (argument : Nat) : Checked DecodeError Value :=
  if -2 ^ 63 ≤ -1 - (argument : Int) then .ok (.negative (-1 - argument)) else .fault .overflow

/-- The value behind a head: only an array and a map call the reader again. -/
def readBodyCalls (item : Nat → Calls (Value × Nat)) (start major short argument used : Nat) :
    Calls (Value × Nat) :=
  match major with
  | 1 =>
      if argument < 2 ^ 63 then do
        let value ← Calls.step (negated argument)
        pure (value, used)
      else Calls.step (.fail ⟨"a negative number is larger than this reader holds", start⟩)
  | 4 =>
      if argument > bytes.length - used then
        Calls.step (.fail ⟨"an array claims more items than remain", start⟩)
      else do
        Calls.step (Checked.allocate argument bytes.length)
        let (items, last) ← readItemsCalls item argument used
        pure (.array items, last)
  | 5 =>
      if argument > bytes.length - used then
        Calls.step (.fail ⟨"a map claims more entries than remain", start⟩)
      else do
        let (entries, last) ← readEntriesCalls item argument used ∅
        pure (entries.build, last)
  | other =>
      Calls.step (readBodyChecked bytes (fun _ => .fault .range) start other short argument used)

/-- One value at `start`, in a call that counts its depth. -/
def readCalls (depth start : Nat) : Calls (Value × Nat) := do
  Logged.note [.called depth]
  if _deep : depth > maxDepth then
    Calls.step (.fail ⟨"the value nests deeper than this reader follows", start⟩)
  else do
    Logged.note [.reads depth]
    match bytes[start]? with
    | none => Calls.step (.fail ⟨"the value stops", start⟩)
    | some initial => do
        let (argument, used) ← Calls.step (readArgumentChecked bytes start (initial.toNat % 32))
        readBodyCalls bytes (fun next => readCalls (depth + 1) next) start (initial.toNat / 32)
          (initial.toNat % 32) argument used
termination_by maxDepth + 1 - depth

def decodeCalls : Calls Value := do
  let (value, used) ← readCalls bytes 0 0
  if used ≠ bytes.length then Calls.step (.fail ⟨"more bytes follow the value", used⟩)
  else pure value

end

section
variable {bytes : Bytes}

@[simp] theorem result_step {α : Type} (result : Checked DecodeError α) :
    (Calls.step result).result = result := rfl

section
variable {item : Nat → Calls (Value × Nat)} {plain : Nat → Checked DecodeError (Value × Nat)}

theorem result_readItemsCalls (same : ∀ start, (item start).result = plain start) (count used : Nat) :
    (readItemsCalls item count used).result = readItemsChecked plain count used := by
  induction count generalizing used with
  | zero => rfl
  | succ count ih =>
    simp only [readItemsCalls, readItemsChecked, Logged.result_bind, same, ih]
    rfl

theorem result_readEntriesCalls (same : ∀ start, (item start).result = plain start)
    (count used : Nat) (entries : MapBuilder) : (readEntriesCalls item count used entries).result =
      readEntriesChecked plain count used entries := by
  induction count generalizing used entries with
  | zero => rfl
  | succ count ih =>
    simp only [readEntriesCalls, readEntriesChecked, Logged.result_bind, same]
    cases plain used with
    | error e => rfl
    | ok found =>
      obtain ⟨key, next⟩ := found
      cases key with
      | text key =>
        show (item next >>= fun more =>
            readEntriesCalls item count more.2 (entries.put key more.1)).result =
          plain next >>= fun more => readEntriesChecked plain count more.2 (entries.put key more.1)
        rw [Logged.result_bind, same]
        cases plain next with
        | error e => rfl
        | ok more => exact ih more.2 _
      | _ => rfl

theorem negated_eq {argument : Nat} (small : argument < 2 ^ 63) :
    negated argument = .ok (.negative (-1 - argument)) := if_pos (by omega)

theorem result_readBodyCalls (same : ∀ start, (item start).result = plain start)
    (start major short argument used : Nat) : (readBodyCalls bytes item start major short argument used).result =
      readBodyChecked bytes plain start major short argument used := by
  unfold readBodyCalls
  split
  · by_cases small : argument < 2 ^ 63
    · rw [if_pos small, Logged.result_bind, result_step, negated_eq small, readBodyChecked, if_pos small]
      rfl
    · rw [if_neg small, readBodyChecked, if_neg small]
      rfl
  · by_cases room : argument > bytes.length - used
    · rw [if_pos room, readBodyChecked, if_pos room]
      rfl
    · rw [if_neg room, readBodyChecked, if_neg room]
      simp only [Logged.result_bind, result_step, result_readItemsCalls same]
      rfl
  · by_cases room : argument > bytes.length - used
    · rw [if_pos room, readBodyChecked, if_pos room]
      rfl
    · rw [if_neg room, readBodyChecked, if_neg room]
      simp only [Logged.result_bind, result_readEntriesCalls same]
      rfl
  · rename_i other _ array map
    rw [result_step]
    unfold readBodyChecked
    split <;> first | rfl | contradiction

end

theorem result_readCalls (depth start : Nat) :
    (readCalls bytes depth start).result = readChecked bytes (maxDepth + 1 - depth) start := by
  induction left : maxDepth + 1 - depth generalizing depth start with
  | zero =>
    have deep : depth > maxDepth := by omega
    rw [readCalls, Logged.result_bind, dif_pos deep]
    rfl
  | succ left ih =>
    have shallow : ¬depth > maxDepth := by omega
    rw [readCalls, Logged.result_bind, dif_neg shallow, readChecked]
    simp only [Logged.result_note, Except.bind, Logged.result_bind]
    cases bytes[start]? with
    | none => rfl
    | some initial =>
      simp only [Logged.result_bind, result_step]
      cases readArgumentChecked bytes start (initial.toNat % 32) with
      | error e => rfl
      | ok found =>
        exact result_readBodyCalls (fun next => ih (depth + 1) next (by omega)) _ _ _ _ _

theorem result_decodeCalls : (decodeCalls bytes).result = decodeChecked bytes := by
  rw [decodeCalls, decodeChecked, Logged.result_bind, result_readCalls]
  cases readChecked bytes (maxDepth + 1) 0 with
  | error e => rfl
  | ok found =>
    show (if found.2 ≠ bytes.length then
        Calls.step (.fail ⟨"more bytes follow the value", found.2⟩) else pure found.1).result =
      if found.2 ≠ bytes.length then Checked.fail ⟨"more bytes follow the value", found.2⟩
      else .ok found.1
    split <;> rfl

end

/-! How deep the calls go. -/

/-- A call counts at most one level past the deepest nesting, and one that goes on to read
counts none past it. -/
def Call.Shallow : Call → Prop
  | .called depth => depth ≤ maxDepth + 1
  | .reads depth => depth ≤ maxDepth

section
variable {bytes : Bytes} {item : Nat → Calls (Value × Nat)}

variable (each : ∀ start, (item start).Keeps Call.Shallow)
include each

theorem keeps_readItemsCalls (count used : Nat) :
    (readItemsCalls item count used).Keeps Call.Shallow := by
  induction count generalizing used with
  | zero => exact .pure _
  | succ count ih => exact (each used).bind fun first _ => (ih first.2).bind fun _ _ => .pure _

theorem keeps_readEntriesCalls (count used : Nat)
    (entries : MapBuilder) : (readEntriesCalls item count used entries).Keeps Call.Shallow := by
  induction count generalizing used entries with
  | zero => exact .pure _
  | succ count ih =>
    refine (each used).bind fun found _ => ?_
    obtain ⟨key, next⟩ := found
    cases key with
    | text key => exact (each next).bind fun more _ => ih more.2 _
    | _ => exact .lift _

theorem keeps_readBodyCalls (start major short argument used : Nat) :
    (readBodyCalls bytes item start major short argument used).Keeps Call.Shallow := by
  unfold readBodyCalls
  split
  · split
    · exact (Logged.Keeps.lift _).bind fun _ _ => .pure _
    · exact .lift _
  · split
    · exact .lift _
    · exact (Logged.Keeps.lift _).bind fun _ _ =>
        (keeps_readItemsCalls each _ _).bind fun _ _ => .pure _
  · split
    · exact .lift _
    · exact (keeps_readEntriesCalls each _ _ _).bind fun _ _ => .pure _
  · exact .lift _

omit each

theorem keeps_readCalls {depth : Nat} (shallow : depth ≤ maxDepth + 1) (start : Nat) :
    (readCalls bytes depth start).Keeps Call.Shallow := by
  induction left : maxDepth + 1 - depth generalizing depth start with
  | zero =>
    rw [readCalls, dif_pos (by omega)]
    exact (Logged.Keeps.note (by simpa [Call.Shallow] using shallow)).bind fun _ _ => .lift _
  | succ left ih =>
    have inside : depth ≤ maxDepth := by omega
    rw [readCalls, dif_neg (by omega)]
    refine (Logged.Keeps.note (by simpa [Call.Shallow] using shallow)).bind fun _ _ => ?_
    refine (Logged.Keeps.note (by simpa [Call.Shallow] using inside)).bind fun _ _ => ?_
    split
    · exact .lift _
    · exact (Logged.Keeps.lift _).bind fun found _ =>
        keeps_readBodyCalls (fun next => ih (by omega) next (by omega)) _ _ _ _ _

theorem keeps_decodeCalls : (decodeCalls bytes).Keeps Call.Shallow := by
  refine (keeps_readCalls (Nat.zero_le _) 0).bind fun found _ => ?_
  show (if found.2 ≠ bytes.length then
    Calls.step (.fail ⟨"more bytes follow the value", found.2⟩) else pure found.1).Keeps _
  split
  · exact .lift _
  · exact .pure _

end

/-! How much a value holds, and where an error is. -/

mutual

def Value.nodes : Value → Nat
  | .array items => nodesItems items + 1
  | .map entries => nodesEntries entries + 1
  | .unsigned _ | .negative _ | .bytes _ | .text _ | .bool _ | .null | .float _ => 1

def nodesItems : List Value → Nat
  | [] => 0
  | item :: items => item.nodes + nodesItems items

def nodesEntries : List (String × Value) → Nat
  | [] => 0
  | (_, value) :: entries => 1 + value.nodes + nodesEntries entries

end

mutual

theorem Value.nodes_le_extent : (v : Value) → v.nodes ≤ v.extent
  | .array items => Nat.succ_le_succ (nodesItems_le items)
  | .map entries => Nat.succ_le_succ (nodesEntries_le entries)
  | .bytes _ | .text _ => Nat.succ_le_succ (Nat.zero_le _)
  | .unsigned _ | .negative _ | .bool _ | .null | .float _ => le_refl _

theorem nodesItems_le : (items : List Value) → nodesItems items ≤ extentItems items
  | [] => le_refl _
  | item :: items => Nat.add_le_add item.nodes_le_extent (nodesItems_le items)

theorem nodesEntries_le : (entries : List (String × Value)) → nodesEntries entries ≤ extentEntries entries
  | [] => le_refl _
  | (_, value) :: entries =>
    Nat.add_le_add (Nat.add_le_add (Nat.le_add_left _ _) value.nodes_le_extent) (nodesEntries_le entries)

end

/-- On any bytes the reader returns or refuses without stopping the process, calls itself at
most one level past the deepest nesting it follows and reads at none past it, returns at most
one node for each byte, and reports an error inside the bytes. -/
theorem reader_is_safe {bytes : Bytes} (small : bytes.length < 2 ^ 63) : ¬Checked.Faults (decodeCalls bytes).result ∧
      (decodeCalls bytes).result = Checked.lift (decode bytes) ∧ (decodeCalls bytes).Keeps Call.Shallow ∧
      (∀ v, decode bytes = .ok v → v.nodes ≤ bytes.length) ∧
      ∀ e, decode bytes = .error e → e.offset ≤ bytes.length + 1 := by
  have spans := @read_spans bytes 0 (maxDepth + 1) (Nat.zero_le _)
  have exact : (decodeCalls bytes).result = Checked.lift (decode bytes) := by
    rw [result_decodeCalls, decodeChecked_eq small]
  refine ⟨?_, exact, keeps_decodeCalls, ?_, ?_⟩
  · rw [exact]
    exact Checked.not_faults_lift _
  · intro v accepted
    exact v.nodes_le_extent.trans (extent_le_of_decode accepted)
  · intro e refused
    cases here : read bytes (maxDepth + 1) 0 with
    | error first =>
      rw [here] at spans
      simp only [decode, here, bind, Except.bind, Except.error.injEq] at refused
      obtain rfl := refused
      exact Nat.le_succ_of_le spans
    | ok found =>
      rw [here] at spans
      simp only [decode, here, bind, Except.bind] at refused
      split at refused
      · cases refused
        exact Nat.le_succ_of_le spans.2
      · cases refused

/-- An array in an array, past the deepest nesting. -/
theorem reader_is_safe_nested : (decodeCalls (List.replicate 40 0x81)).Keeps Call.Shallow ∧
      decode (List.replicate 40 0x81) = .error ⟨"the value nests deeper than this reader follows", 33⟩ ∧
      33 ≤ (List.replicate 40 (0x81 : UInt8)).length + 1 := by
  have refused : decode (List.replicate 40 0x81) =
      .error ⟨"the value nests deeper than this reader follows", 33⟩ := by
    rfl
  obtain ⟨-, -, shallow, -, inside⟩ := @reader_is_safe (List.replicate 40 0x81) (by decide)
  exact ⟨shallow, refused, inside _ refused⟩

end TallyOwl.Cbor
