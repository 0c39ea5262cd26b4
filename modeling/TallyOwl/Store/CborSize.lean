import TallyOwl.Lib.Logged
import TallyOwl.Store.CborChecked

/-! What the reader takes: a value ends inside the bytes and is no larger than those it was read from. -/
namespace TallyOwl.Cbor
open Lib List

mutual

/-- A byte for each value and each key inside a value, and the bytes of its texts and its blocks. -/
def Value.extent : Value → Nat
  | .bytes v => v.length + 1
  | .text v => (textBytes v).length + 1
  | .array items => extentItems items + 1
  | .map entries => extentEntries entries + 1
  | .unsigned _ | .negative _ | .bool _ | .null | .float _ => 1

def extentItems : List Value → Nat
  | [] => 0
  | item :: items => item.extent + extentItems items

def extentEntries : List (String × Value) → Nat
  | [] => 0
  | (key, value) :: entries => (textBytes key).length + 1 + value.extent + extentEntries entries

end

theorem extentEntries_insertEntry (key : String) (value : Value) (entries : List (String × Value)) :
    extentEntries (insertEntry key value entries) ≤
      extentEntries entries + ((textBytes key).length + 1 + value.extent) := by
  induction entries with
  | nil => simp [insertEntry, extentEntries]
  | cons e entries ih =>
    obtain ⟨first, held⟩ := e
    unfold insertEntry
    split
    · simp only [extentEntries]
      omega
    · split
      · simp only [extentEntries]
        omega
      · simp only [extentEntries]
        omega

theorem extent_le_of_mem {e : String × Value} {entries : List (String × Value)} (inside : e ∈ entries) :
    e.2.extent ≤ extentEntries entries := by
  induction entries with
  | nil => cases inside
  | cons other entries ih =>
    rcases mem_cons.mp inside with rfl | later
    · simp only [extentEntries]
      omega
    · exact (ih later).trans (Nat.le_add_left _ _)

theorem extent_field {value found : Value} {name : String} (held : value.field name = some found) :
    found.extent ≤ value.extent := by
  cases value with
  | map entries =>
    obtain ⟨e, first, rfl⟩ := Option.map_eq_some_iff.mp held
    exact (extent_le_of_mem (mem_of_find?_eq_some first)).trans (Nat.le_succ _)
  | _ => cases held

theorem sum_asText_le (items : List Value) :
    ((items.filterMap Value.asText).map fun text => (textBytes text).length).sum ≤ extentItems items := by
  induction items with
  | nil => exact le_refl _
  | cons item items ih =>
    cases item with
    | text v =>
      have kept : (Value.text v :: items).filterMap Value.asText = v :: items.filterMap Value.asText := rfl
      rw [kept, map_cons, sum_cons]
      exact Nat.add_le_add (Nat.le_succ _) ih
    | _ => exact ih.trans (Nat.le_add_left _ _)

/-- A reader's answer at a place: a value ends inside the bytes and is no larger than those it took, and an
error is inside them. -/
def Spans (size : Nat) (nodes : α → Nat) (start : Nat) : Except DecodeError (α × Nat) → Prop
  | .ok (value, used) => start + nodes value ≤ used ∧ used ≤ size
  | .error e => e.offset ≤ size

theorem Spans.bind {α β : Type} {size start base : Nat} {n : α → Nat} {m : β → Nat}
    {x : Except DecodeError (α × Nat)} {f : α × Nat → Except DecodeError (β × Nat)} (first : Spans size n start x)
    (next : ∀ a used, start + n a ≤ used → used ≤ size → Spans size m base (f (a, used))) :
    Spans size m base (x >>= f) := by
  cases x with
  | error e => exact first
  | ok found => exact next found.1 found.2 first.1 first.2

section
variable {bytes : Bytes} {start : Nat}

theorem readArgument_spans (inside : start < bytes.length) (short : Nat) :
    Spans bytes.length (fun _ => 1) start (readArgument bytes start short) := by
  have wide : ∀ width last, last = 1 + width →
      Spans bytes.length (fun _ => 1) start
        ((readBe bytes (start + 1) width).map fun v => (v, start + last)) := by
    rintro width last rfl
    unfold readBe
    cases here : window bytes (start + 1) width with
    | none => exact inside
    | some slice =>
      have room := (window_eq_some.mp here).1
      exact ⟨Nat.add_le_add_left (Nat.le_add_right 1 width) start, by omega⟩
  unfold readArgument
  split_ifs
  · exact ⟨Nat.le_refl _, inside⟩
  · exact wide 1 2 rfl
  · exact wide 2 3 rfl
  · exact wide 4 5 rfl
  · exact wide 8 9 rfl
  · exact inside.le

section
variable {item : Nat → Except DecodeError (Value × Nat)}

theorem readItems_spans (each : ∀ start, start ≤ bytes.length → Spans bytes.length Value.extent start (item start))
    (count : Nat) {used : Nat} (inside : used ≤ bytes.length) :
    Spans bytes.length extentItems used (readItems item count used) := by
  induction count generalizing used with
  | zero => exact ⟨Nat.le_refl _, inside⟩
  | succ count ih =>
    refine (each used inside).bind fun value next first room => ?_
    refine (ih room).bind fun values last rest ends => ⟨?_, ends⟩
    simp only [extentItems]
    omega

theorem readEntries_spans (each : ∀ start, start ≤ bytes.length → Spans bytes.length Value.extent start (item start))
    (count : Nat) {base used : Nat} (inside : used ≤ bytes.length) (entries : MapBuilder)
    (before : base + extentEntries entries.entries ≤ used) :
    Spans bytes.length (fun m : MapBuilder => extentEntries m.entries) base (readEntries item count used entries) := by
  induction count generalizing used entries with
  | zero => exact ⟨before, inside⟩
  | succ count ih =>
    refine (each used inside).bind fun key next first room => ?_
    cases key with
    | text key =>
      refine (each next room).bind fun value last second ends => ?_
      have put := extentEntries_insertEntry key value entries.entries
      rw [Value.extent] at first
      refine ih ends (entries.put key value) (le_trans (Nat.add_le_add_left put base) ?_)
      omega
    | _ => exact inside

theorem readSlice_spans (inside : start ≤ bytes.length) {used length : Nat}
    {f : Bytes → Except DecodeError (Value × Nat)}
    (next : ∀ found : Bytes, found.length = length → used + length ≤ bytes.length →
      Spans bytes.length Value.extent start (f found)) :
    Spans bytes.length Value.extent start (readSlice bytes start used length >>= f) := by
  unfold readSlice
  cases here : window bytes used length with
  | none => exact inside
  | some found => exact next found (length_of_window here) (window_eq_some.mp here).1

theorem readBody_spans (each : ∀ start, start ≤ bytes.length → Spans bytes.length Value.extent start (item start))
    (inside : start ≤ bytes.length) {used : Nat} (later : start + 1 ≤ used)
    (room : used ≤ bytes.length) (major short argument : Nat) :
    Spans bytes.length Value.extent start (readBody bytes item start major short argument used) := by
  -- A scalar takes its head, which is one byte at the least.
  have scalar : ∀ v : Value, v.extent = 1 → Spans bytes.length Value.extent start (.ok (v, used)) := by
    intro v one
    exact ⟨by rw [one]; exact later, room⟩
  unfold readBody
  split
  · exact scalar _ (by simp [Value.extent])
  · split
    · exact scalar _ (by simp [Value.extent])
    · exact inside
  · refine readSlice_spans inside fun found width ends => ⟨?_, ends⟩
    simp only [Value.extent]
    omega
  · refine readSlice_spans inside fun found width ends => ?_
    cases valid : String.fromUTF8? ⟨found.toArray⟩ with
    | none => exact inside
    | some text =>
      refine ⟨?_, ends⟩
      simp only [Value.extent, textBytes_of_fromUTF8 valid]
      omega
  · split
    · exact inside
    · refine (readItems_spans each argument room).bind fun items last held ends => ⟨?_, ends⟩
      simp only [Value.extent]
      omega
  · split
    · exact inside
    · have empty : used + extentEntries (∅ : MapBuilder).entries ≤ used := Nat.le_refl used
      refine (readEntries_spans each argument room ∅ empty).bind fun entries last held ends => ⟨?_, ends⟩
      simp only [MapBuilder.build, Value.extent]
      omega
  · split_ifs
    · exact scalar _ (by simp [Value.extent])
    · exact scalar _ (by simp [Value.extent])
    · exact scalar _ (by simp [Value.extent])
    · exact scalar _ (by simp [Value.extent])
    · exact inside
  · exact inside

end

theorem read_spans (left : Nat) (inside : start ≤ bytes.length) :
    Spans bytes.length Value.extent start (read bytes left start) := by
  induction left generalizing start with
  | zero => exact inside
  | succ left ih =>
    cases here : bytes[start]? with
    | none =>
      rw [read, here]
      exact inside
    | some initial =>
      rw [read, here]
      have before := (List.getElem?_eq_some_iff.mp here).1
      exact (readArgument_spans before _).bind fun argument used later room =>
        readBody_spans (fun _ => ih) inside later room _ _ _

theorem extent_le_of_decode {v : Value} (accepted : decode bytes = .ok v) : v.extent ≤ bytes.length := by
  have spans := @read_spans bytes 0 (maxDepth + 1) (Nat.zero_le _)
  obtain ⟨⟨value, used⟩, here, rest⟩ := except_bind_ok accepted
  rw [here] at spans
  dsimp only at rest
  split at rest
  · cases rest
  · cases rest
    have held := spans.1
    have ends := spans.2
    omega

end

end TallyOwl.Cbor
