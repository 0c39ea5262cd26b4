import TallyOwl.Store.Segment.Projection
import TallyOwl.Store.Segment.Stops

/-! Which texts are read as hexadecimal (`row.rs`). -/
namespace TallyOwl.SegmentFormat
open Lib Lib.Checked Format RowCodec List

/-- Pairs of hexadecimal digits, the first of a pair perhaps a plus sign. -/
def SignedDigits : List Char → Prop
  | [] => True
  | [_] => False
  | high :: low :: rest => (high = '+' ∨ (hexDigit high).isSome) ∧ (hexDigit low).isSome ∧ SignedDigits rest

theorem reads_pairsOfHex (chars : List Char) : (∃ bytes, pairsOfHex chars = .ok (some bytes)) ↔ HexPairs chars := by
  fun_induction pairsOfHex chars with
  | case1 => exact iff_of_true ⟨_, rfl⟩ trivial
  | case2 => exact iff_of_false (by simp) id
  | case3 => exact iff_of_false (fun read => by cases read.choose_spec) id
  | case4 high low rest two =>
    refine iff_of_false (by simp) fun pairs => ?_
    rw [pairs.1] at two
    cases two
  | case5 high low rest notTwo wide =>
    refine iff_of_false (fun read => by cases read.choose_spec) fun pairs => ?_
    exact wide.elim (fun no => no pairs.1) fun no => no pairs.2.1
  | case6 high low rest notTwo narrow none =>
    refine iff_of_false (by simp) fun pairs => ?_
    have read := pairs.2.2.1
    rw [none] at read
    cases read
  | case7 high low rest notTwo narrow byte number ih =>
    have sizes : high.utf8Size = 1 ∧ low.utf8Size = 1 := by
      refine ⟨?_, ?_⟩ <;> by_contra other <;> exact narrow (by simp [other])
    constructor
    · rintro ⟨bytes, read⟩
      obtain ⟨held, behind, same⟩ := bind_eq_ok.mp read
      obtain ⟨later, rfl, -⟩ := Option.map_eq_some_iff.mp (Except.ok.inj same)
      exact ⟨sizes.1, sizes.2, by rw [number]; rfl, ih.mp ⟨later, behind⟩⟩
    · rintro ⟨-, -, -, pairs⟩
      obtain ⟨later, behind⟩ := ih.mpr pairs
      exact ⟨byte :: later, bind_eq_ok.mpr ⟨some later, behind, rfl⟩⟩

theorem size_of_hexDigit {c : Char} (digit : (hexDigit c).isSome) : c.utf8Size = 1 := by
  have low : c ≤ 'f' := by
    unfold hexDigit at digit
    split_ifs at digit with first second third
    · exact first.2.trans (by decide)
    · exact second.2
    · exact third.2.trans (by decide)
    · cases digit
  have small : c.val ≤ 0x7f :=
    UInt32.le_trans (show c.val ≤ ('f' : Char).val from low) (show ('f' : Char).val ≤ 0x7f by decide)
  exact if_pos small

theorem hexPairs_iff (chars : List Char) : HexPairs chars ↔ SignedDigits chars := by
  fun_induction HexPairs chars with
  | case1 => exact Iff.rfl
  | case2 c => exact Iff.rfl
  | case3 high low rest ih =>
    have byte : (hexByte high low).isSome ↔ (high = '+' ∨ (hexDigit high).isSome) ∧ (hexDigit low).isSome := by
      unfold hexByte
      split_ifs with plus
      · simp [plus]
      · cases hexDigit high <;> cases hexDigit low <;> simp [plus]
    constructor
    · rintro ⟨-, -, read, pairs⟩
      exact ⟨(byte.mp read).1, (byte.mp read).2, ih.mp pairs⟩
    · rintro ⟨first, second, pairs⟩
      refine ⟨first.elim ?_ size_of_hexDigit, size_of_hexDigit second, byte.mpr ⟨first, second⟩, ih.mpr pairs⟩
      rintro rfl
      rfl

theorem signedDigits_unsigned (chars : List Char) : SignedDigits chars ∧ '+' ∉ chars ↔
    chars.length % 2 = 0 ∧ ∀ c ∈ chars, (hexDigit c).isSome := by
  have apart {c : Char} (digit : (hexDigit c).isSome) : '+' ≠ c := by
    rintro rfl
    cases digit
  fun_induction SignedDigits chars with
  | case1 => simp
  | case2 c => simp
  | case3 high low rest ih =>
    rw [length_cons, length_cons, forall_mem_cons, forall_mem_cons]
    constructor
    · rintro ⟨⟨first, second, pairs⟩, unsigned⟩
      obtain ⟨even, digits⟩ := ih.mp ⟨pairs, fun inside => unsigned (by simp [inside])⟩
      exact ⟨by omega, first.resolve_left fun plus => unsigned (plus ▸ mem_cons_self), second, digits⟩
    · rintro ⟨even, first, second, digits⟩
      obtain ⟨pairs, unsigned⟩ := ih.mpr ⟨by omega, digits⟩
      exact ⟨⟨.inr first, second, pairs⟩, by simp [apart first, apart second, unsigned]⟩

theorem even_signedDigits (chars : List Char) (signed : SignedDigits chars) :
    (chars.flatMap String.utf8EncodeChar).length % 2 = 0 := by
  fun_induction SignedDigits chars with
  | case1 => rfl
  | case2 => exact signed.elim
  | case3 high low rest ih =>
    obtain ⟨first, second, pairs⟩ := signed
    have one : high.utf8Size = 1 := first.elim (fun plus => plus ▸ rfl) size_of_hexDigit
    have behind := ih pairs
    simp only [flatMap_cons, length_append, String.length_utf8EncodeChar, one, size_of_hexDigit second]
    omega

/-- Reading the text returns, and gives bytes exactly where it is an even number of hexadecimal digits. -/
structure ParsesExactly (text : String) : Prop where
  returns : ¬Faults (hexBytes text)
  bytes : (∃ bytes, hexBytes text = .ok (some bytes)) ↔
    (textBytes text).length % 2 = 0 ∧ ∀ c ∈ text.toList, (hexDigit c).isSome

/-- Hexadecimal text is read exactly but where a cut falls inside a character, or where a sign stands for the first
digit of a pair. What was written as hexadecimal is read back. -/
theorem hex_parses_exactly (text : String) :
    (ParsesExactly text ↔ ¬CutInside text ∧ ¬(SignedDigits text.toList ∧ '+' ∈ text.toList)) ∧
      ∀ bytes, hexBytes (hex bytes) = .ok (some bytes) := by
  refine ⟨?_, hexBytes_hex⟩
  have size : textBytes text = text.toList.flatMap String.utf8EncodeChar := by
    rw [← textBytes_ofList, String.ofList_toList]
  have reads : (∃ bytes, hexBytes text = .ok (some bytes)) ↔ SignedDigits text.toList := by
    unfold hexBytes
    split_ifs with even
    · rw [reads_pairsOfHex, hexPairs_iff]
    · exact iff_of_false (by simp) fun signed => even (size ▸ even_signedDigits _ signed)
  constructor
  · rintro ⟨returns, exact⟩
    refine ⟨fun cut => returns ((faults_hexBytes text).mpr cut), fun ⟨signed, plus⟩ => ?_⟩
    have digits := (exact.mp (reads.mpr signed)).2 '+' plus
    cases digits
  · rintro ⟨whole, unsigned⟩
    refine ⟨fun stops => whole ((faults_hexBytes text).mp stops), reads.trans ⟨fun signed => ?_, ?_⟩⟩
    · exact ⟨size ▸ even_signedDigits _ signed,
        ((signedDigits_unsigned _).mp ⟨signed, fun plus => unsigned ⟨signed, plus⟩⟩).2⟩
    · rintro ⟨even, digits⟩
      have long : (textBytes text).length = text.toList.length := by
        rw [size, List.length_flatMap, List.map_congr_left (g := fun _ => 1) fun c found => ?_]
        · simp
        · rw [String.length_utf8EncodeChar, size_of_hexDigit (digits c found)]
      exact ((signedDigits_unsigned _).mpr ⟨long ▸ even, digits⟩).1

/-- A sign and a digit read as a byte, and a letter of two bytes behind a digit stops the reader. -/
theorem sign_reads_as_digit : hexBytes "+a" = .ok (some [10]) ∧ hexBytes "aéb" = .fault .range := by
  decide +kernel

end TallyOwl.SegmentFormat
