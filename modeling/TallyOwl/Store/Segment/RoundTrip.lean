import TallyOwl.Store.Segment.Stops

/-! What a page reads back as. A column of few enough bytes reads back as the values it was
written of, and no page gives back values that take more bytes than any page may hold: each
encoding is the shortest its reader accepts. -/
open List

namespace TallyOwl.SegmentFormat
open Lib Lib.Checked Format Locate Cbor

/-! Bits. -/

theorem bits_lt (bits : List Bool) : bits.foldr (fun bit rest => bit.toNat + 2 * rest) 0 < 2 ^ bits.length := by
  induction bits with
  | nil => simp
  | cons bit bits ih =>
    have one := Bool.toNat_le bit
    rw [foldr_cons, length_cons, pow_succ]
    omega

theorem bit_of_bits {bits : List Bool} {k : Nat} {bit : Bool} (found : bits[k]? = some bit) :
    bits.foldr (fun bit rest => bit.toNat + 2 * rest) 0 / 2 ^ k % 2 = bit.toNat := by
  induction bits generalizing k with
  | nil => cases found
  | cons first bits ih =>
    have one := Bool.toNat_le first
    cases k with
    | zero =>
      cases found
      rw [foldr_cons, pow_zero]
      omega
    | succ k =>
      rw [foldr_cons, pow_succ', ← Nat.div_div_eq_div_mul, ← ih (by simpa using found)]
      congr 2
      omega

theorem bitOf_byteOf {bits : List Bool} (few : bits.length ≤ 8) {k : Nat} {bit : Bool}
    (found : bits[k]? = some bit) : bitOf (byteOf bits) k = bit := by
  have small : bits.foldr (fun bit rest => bit.toNat + 2 * rest) 0 < 2 ^ 8 :=
    (bits_lt bits).trans_le (Nat.pow_le_pow_right (by decide) few)
  unfold bitOf byteOf
  rw [UInt8.toNat_ofNat', Nat.mod_eq_of_lt small, bit_of_bits found]
  cases bit <;> rfl

@[simp] theorem length_packBits (bits : List Bool) : (packBits bits).length = (bits.length + 7) / 8 := by
  simp [packBits]

theorem bit_packBits {bits : List Bool} {index : Nat} {bit : Bool} (found : bits[index]? = some bit) :
    ∃ byte, (packBits bits)[index / 8]? = some byte ∧ bitOf byte (index % 8) = bit := by
  have inside := (List.getElem?_eq_some_iff.mp found).1
  refine ⟨byteOf ((bits.drop (8 * (index / 8))).take 8), ?_, ?_⟩
  · have room : index / 8 < (bits.length + 7) / 8 := by omega
    simp [packBits, getElem?_range room]
  · refine bitOf_byteOf (by simp) ?_
    rw [getElem?_take_of_lt (Nat.mod_lt _ (by decide)), getElem?_drop, Nat.div_add_mod]
    exact found

theorem nulls_packBits (bits : List Bool) : ((List.range bits.length).map fun index =>
    (((packBits bits)[index / 8]?).map fun byte => bitOf byte (index % 8)).getD false) = bits := by
  refine ext_getElem? fun index => ?_
  by_cases inside : index < bits.length
  · obtain ⟨byte, here, is⟩ := bit_packBits (getElem?_eq_getElem inside)
    rw [getElem?_map, getElem?_range inside, getElem?_eq_getElem inside]
    simp [here, is]
  · rw [getElem?_eq_none (by simpa using inside), getElem?_eq_none (by omega)]

/-! Values behind the bytes before them. -/

theorem part_append (before x after : Bytes) :
    (part (before ++ (x ++ after)) before.length (before.length + x.length) : Checked FormatError Bytes) = .ok x := by
  rw [part_of_le (by omega) (by simp), take_length_add_append, drop_left, take_left]

theorem part_length {ε α : Type} {xs found : List α} {first last : Nat}
    (read : (part xs first last : Checked ε (List α)) = .ok found) : found.length = last - first := by
  unfold part at read
  split at read
  · rename_i inside
    cases read
    simp [inside.2]
  · cases read

theorem wrapI64_of_inI64 {n : Int} (fits : InI64 n) : wrapI64 n = n := by
  obtain ⟨low, high⟩ := fits
  exact Int.bmod_eq_of_le (by norm_num at low ⊢; omega) (by norm_num at high ⊢; omega)

theorem wrapI64_add_difference {value : Int} (fits : InI64 value) (previous : Int) :
    wrapI64 (previous + wrapI64 (value - previous)) = value := by
  rw [wrapI64, wrapI64, Int.add_bmod_bmod, show previous + (value - previous) = value by omega]
  exact wrapI64_of_inI64 fits

theorem zigzag_wrapI64_lt (n : Int) : zigzag (wrapI64 n) < 2 ^ 64 :=
  zigzag_lt (inI64_wrapI64 n).1 (inI64_wrapI64 n).2

theorem readDeltas_append {values : List Int} (typed : ∀ v ∈ values, InI64 v) (previous : Int)
    (before after : Bytes) (small : (before ++ (putDeltas previous values ++ after)).length < 2 ^ 64) :
    readDeltas (before ++ (putDeltas previous values ++ after)) values.length before.length previous =
      .ok (values, before.length + (putDeltas previous values).length) := by
  induction values generalizing previous before with
  | nil => simp [readDeltas, putDeltas]
  | cons value values ih =>
    rw [putDeltas, append_assoc] at small ⊢
    have number := getVarint_append (zigzag_wrapI64_lt (value - previous)) before
      (putDeltas value values ++ after) small
    have tail := ih (fun v inside => typed v (mem_cons_of_mem _ inside)) value
      (before ++ putVarint (zigzag (wrapI64 (value - previous)))) (by simpa using small)
    rw [append_assoc, length_append] at tail
    rw [length_cons, readDeltas, number, ok_bind]
    dsimp only
    rw [unzigzag_zigzag, wrapI64_add_difference (typed value mem_cons_self), tail, ok_bind,
      length_append, Nat.add_assoc]

theorem readVarints_append {values : List Nat} (typed : ∀ v ∈ values, v < 2 ^ 64) (before after : Bytes)
    (small : (before ++ (values.flatMap putVarint ++ after)).length < 2 ^ 64) :
    readVarints (before ++ (values.flatMap putVarint ++ after)) values.length before.length = .ok values := by
  induction values generalizing before with
  | nil => rfl
  | cons value values ih =>
    rw [flatMap_cons, append_assoc] at small ⊢
    have number := getVarint_append (typed value mem_cons_self) before
      (values.flatMap putVarint ++ after) small
    have tail := ih (fun v inside => typed v (mem_cons_of_mem _ inside)) (before ++ putVarint value)
      (by simpa using small)
    rw [append_assoc, length_append] at tail
    rw [length_cons, readVarints, number, ok_bind]
    dsimp only
    rw [tail, ok_bind]

theorem readFloats_append (values : List UInt64) (index : Nat) (before after : Bytes)
    (place : before.length = index * 8)
    (small : (before ++ (values.flatMap (fun bits => putU64 bits.toNat) ++ after)).length < 2 ^ 64) :
    readFloats (before ++ (values.flatMap (fun bits => putU64 bits.toNat) ++ after)) values.length index =
      .ok values := by
  induction values generalizing index before with
  | nil => rfl
  | cons value values ih =>
    rw [flatMap_cons, append_assoc] at small ⊢
    have found := slice_append before (putU64 value.toNat)
      (values.flatMap (fun bits => putU64 bits.toNat) ++ after)
    have tail := ih (index + 1) (before ++ putU64 value.toNat)
      (by rw [length_append, length_putU64, place]; omega) (by simpa using small)
    have number : leNat (putU64 value.toNat) = value.toNat := leNat_leBytes 8 _ value.toNat_lt
    rw [append_assoc] at tail
    rw [length_putU64, place] at found
    have low : index * 8 < 2 ^ 64 := by
      rw [length_append] at small
      omega
    rw [length_cons, readFloats, word_of_lt low, ok_bind, found, lift_ok, ok_bind, tail, ok_bind, number,
      UInt64.ofNat_toNat]

theorem readBooleans_packBits (bits : List Bool) {rows index : Nat} (whole : index + rows = bits.length) :
    readBooleans (packBits bits) rows index = .ok (bits.drop index) := by
  induction rows generalizing index with
  | zero => rw [readBooleans, drop_eq_nil_of_le (by omega)]
  | succ rows ih =>
    have inside : index < bits.length := by omega
    obtain ⟨byte, here, is⟩ := bit_packBits (getElem?_eq_getElem inside)
    rw [readBooleans, item_of_lt here, ok_bind, ih (by omega), ok_bind, is, drop_eq_getElem_cons inside]

theorem beNat_head_lt (id : Id) : beNat (id.bytes.take 8) < 2 ^ 64 := by
  have bound := leNat_lt (id.bytes.take 8).reverse
  rw [length_reverse, length_take, Id.length_bytes] at bound
  exact bound

theorem inI64_headOf (id : Id) : InI64 (headOf id) := by
  have bound := beNat_head_lt id
  unfold InI64 headOf asI64
  split <;> omega

theorem ofBytes_head_tail (id : Id) : Id.ofBytes (beBytes 8 (asU64 (headOf id)) ++ id.bytes.drop 8) = id := by
  have eight : (id.bytes.take 8).length = 8 := by simp
  have fits := beNat_head_lt id
  have whole : asU64 (headOf id) = beNat (id.bytes.take 8) := by
    unfold headOf asU64 asI64
    split <;> omega
  have back : beBytes 8 (beNat (id.bytes.take 8)) = id.bytes.take 8 := by
    have same := leBytes_leNat (id.bytes.take 8).reverse
    rw [length_reverse, eight] at same
    rw [beBytes, beNat, same, reverse_reverse]
  rw [whole, back, take_append_drop, Id.ofBytes_bytes]

theorem readTails_append (ids : List Id) (start index : Nat) (before after : Bytes)
    (place : before.length = start + index * 8)
    (small : (before ++ (ids.flatMap (fun id => id.bytes.drop 8) ++ after)).length < 2 ^ 64) :
    readTails (before ++ (ids.flatMap (fun id => id.bytes.drop 8) ++ after)) start (ids.map headOf) index =
      .ok ids := by
  induction ids generalizing index before with
  | nil => rfl
  | cons id ids ih =>
    have eight : (id.bytes.drop 8).length = 8 := by simp
    rw [flatMap_cons, append_assoc] at small ⊢
    have found := slice_append before (id.bytes.drop 8) (ids.flatMap (fun id => id.bytes.drop 8) ++ after)
    have tail := ih (index + 1) (before ++ id.bytes.drop 8)
      (by rw [length_append, eight, place]; omega) (by simpa using small)
    rw [append_assoc] at tail
    rw [eight, place] at found
    have low : start + index * 8 < 2 ^ 64 := by
      rw [length_append] at small
      omega
    rw [map_cons, readTails, word_of_lt (by omega), ok_bind, word_of_lt low, ok_bind, found, lift_ok, ok_bind,
      tail, ok_bind, ofBytes_head_tail]

theorem readLengths_append (lengths : List Nat) (total : Nat) (room : total + lengths.sum < 2 ^ 64)
    (before after : Bytes) (small : (before ++ (lengths.flatMap putVarint ++ after)).length < 2 ^ 64) :
    readLengths (before ++ (lengths.flatMap putVarint ++ after)) lengths.length before.length total =
      .ok (lengths, total + lengths.sum, before.length + (lengths.flatMap putVarint).length) := by
  induction lengths generalizing total before with
  | nil => simp [readLengths]
  | cons length lengths ih =>
    rw [sum_cons] at room
    rw [flatMap_cons, append_assoc] at small ⊢
    have number := getVarint_append (show length < 2 ^ 64 by omega) before
      (lengths.flatMap putVarint ++ after) small
    have tail := ih (total + length) (by omega) (before ++ putVarint length) (by simpa using small)
    rw [append_assoc, length_append] at tail
    rw [length_cons, readLengths, number, ok_bind]
    dsimp only
    rw [if_neg (by omega), tail, ok_bind, sum_cons, length_append, Nat.add_assoc, Nat.add_assoc]

def rowText (value : Option String) : Bytes := textBytes (value.getD "")

theorem readTexts_append (values : List (Option String)) (done : List Bool) (before after : Bytes)
    (small : (before ++ ((values.map rowText).flatten ++ after)).length < 2 ^ 64) :
    readTexts (before ++ ((values.map rowText).flatten ++ after)) (done ++ values.map Option.isNone)
      ((values.map rowText).map List.length) before.length done.length = .ok values := by
  induction values generalizing done before with
  | nil => rfl
  | cons value values ih =>
    rw [map_cons, flatten_cons, append_assoc] at small ⊢
    have region := part_append before (rowText value) ((values.map rowText).flatten ++ after)
    have tail := ih (done ++ [value.isNone]) (before ++ rowText value) (by simpa using small)
    rw [append_assoc, append_assoc, singleton_append, length_append, length_append,
      length_singleton] at tail
    have low : before.length + (rowText value).length < 2 ^ 64 := by
      simp only [length_append] at small
      omega
    rw [map_cons, map_cons, readTexts, word_of_lt low, ok_bind, region, ok_bind]
    have mark : ((done ++ value.isNone :: values.map Option.isNone)[done.length]?).getD false = value.isNone := by
      simp
    rw [mark]
    cases value with
    | none =>
      rw [if_pos Option.isNone_none, tail, ok_bind]
    | some text =>
      have valid : String.fromUTF8? ⟨(rowText (some text)).toArray⟩ = some text := fromUTF8_textBytes text
      rw [if_neg (by simp), valid]
      dsimp only
      rw [tail, ok_bind]

namespace Column

/-- What the page of a column reads back as: an integer takes the encoding of a moment. -/
def asRead : Column → Column
  | .integers values => .timestamps values
  | column => column

def isRaw : Column → Bool
  | .bytes _ => true
  | _ => false

def Typed : Column → Prop
  | .timestamps values | .integers values => ∀ v ∈ values, InI64 v
  | .unsigned values => ∀ v ∈ values, v < 2 ^ 64
  | _ => True

end Column

theorem length_le_putDeltas (previous : Int) (values : List Int) : values.length ≤ (putDeltas previous values).length := by
  induction values generalizing previous with
  | nil => simp
  | cons value values ih =>
    have one := length_putVarint_pos (zigzag (wrapI64 (value - previous)))
    have tail := ih value
    rw [putDeltas, length_cons, length_append]
    omega

theorem length_le_encodeValues (column : Column) : column.length ≤ 8 * (encodeValues column).length := by
  have numbers (values : List Nat) : values.length ≤ (values.flatMap putVarint).length :=
    length_le_flatMap values fun v _ => length_putVarint_pos v
  have region (values : List Bytes) : values.length ≤ (putRegion values).length := by
    have lengths : values.length ≤ (values.flatMap fun bytes => putVarint bytes.length).length :=
      length_le_flatMap values fun v _ => length_putVarint_pos v.length
    rw [putRegion, length_append]
    omega
  cases column with
  | timestamps values | integers values =>
    have each := length_le_putDeltas 0 values
    simp only [Column.length, encodeValues]
    omega
  | unsigned values =>
    have each := numbers values
    simp only [Column.length, encodeValues]
    omega
  | floats values =>
    simp only [Column.length, encodeValues, length_flatMap, length_putU64]
    simp
    omega
  | booleans values =>
    simp only [Column.length, encodeValues, length_packBits]
    omega
  | identifiers values =>
    have each := length_le_putDeltas 0 (values.map headOf)
    simp only [Column.length, encodeValues, length_append]
    rw [length_map] at each
    omega
  | text values =>
    have each := region (values.map rowText)
    rw [length_map] at each
    simp only [Column.length, encodeValues]
    exact each.trans (Nat.le_mul_of_pos_left _ (by decide))
  | bytes values =>
    have each := region (values.map fun value => value.getD [])
    rw [length_map] at each
    simp only [Column.length, encodeValues]
    exact each.trans (Nat.le_mul_of_pos_left _ (by decide))

theorem decodeValues_encodeValues {column : Column} (typed : column.Typed) (shape : column.isRaw = false)
    (filled : 0 < column.length) (short : (encodeValues column).length ≤ maxUncompressedPageBytes)
    {backing : Nat} (backed : column.length ≤ 8 * backing) :
    decodeValues (encodeValues column) column.encoding column.length column.nulls backing = .ok column.asRead := by
  have few := length_le_encodeValues column
  have room : (allocate column.length backing : Checked FormatError Unit) = .ok () := allocate_of_le backed
  unfold maxUncompressedPageBytes at short
  have deltas (values : List Int) (held : ∀ v ∈ values, InI64 v) (after : Bytes)
      (small : (putDeltas 0 values ++ after).length < 2 ^ 64) :
      readDeltas (putDeltas 0 values ++ after) values.length 0 0 = .ok (values, (putDeltas 0 values).length) := by
    simpa using readDeltas_append held 0 [] after small
  cases column with
  | timestamps values | integers values =>
    simp only [Column.length] at room
    have read := deltas values typed [] (by simp only [encodeValues] at short; rw [append_nil]; omega)
    rw [append_nil] at read
    simp only [decodeValues, Column.encoding, Column.length, encodeValues, room, ok_bind, read,
      Column.asRead]
  | unsigned values =>
    simp only [Column.length] at room
    have read := readVarints_append typed [] []
      (by simp only [encodeValues] at short; rw [nil_append, append_nil]; omega)
    simp only [nil_append, append_nil, length_nil] at read
    simp only [decodeValues, Column.encoding, Column.length, encodeValues, room, ok_bind, read,
      Column.asRead]
  | floats values =>
    simp only [Column.length] at room
    have size : (encodeValues (.floats values)).length = values.length * 8 := by
      simp [encodeValues, length_flatMap]
    have low : values.length * 8 < 2 ^ 64 := by omega
    have read := readFloats_append values 0 [] [] rfl 
      (by simp only [encodeValues] at size; rw [nil_append, append_nil]; omega)
    simp only [nil_append, append_nil] at read
    simp only [decodeValues, Column.encoding, Column.length, word_of_lt low, ok_bind, size, if_true,
      room, ok_bind, Column.asRead]
    rw [encodeValues, read, ok_bind]
  | booleans values =>
    simp only [Column.length] at room
    have size : (encodeValues (.booleans values)).length = (values.length + 7) / 8 := length_packBits values
    have low : values.length * 8 < 2 ^ 64 := by
      simp only [Column.length] at few
      omega
    have other : (values.length + 7) / 8 ≠ values.length * 8 := by
      simp only [Column.length] at filled
      omega
    have read := readBooleans_packBits values (Nat.zero_add values.length)
    simp only [decodeValues, Column.encoding, Column.length, word_of_lt low, ok_bind, size, if_neg other, if_true,
      room, ok_bind, Column.asRead]
    rw [encodeValues, read, ok_bind, drop_zero]
  | identifiers values =>
    have held : ∀ v ∈ values.map headOf, InI64 v := by
      intro v inside
      obtain ⟨id, -, rfl⟩ := mem_map.mp inside
      exact inI64_headOf id
    simp only [Column.length] at room
    simp only [encodeValues, length_append] at short
    have heads := deltas _ held (values.flatMap fun id => id.bytes.drop 8) (by rw [length_append]; omega)
    have tails := readTails_append values (putDeltas 0 (values.map headOf)).length 0
      (putDeltas 0 (values.map headOf)) [] (by simp)
      (by rw [append_nil, length_append]; omega)
    rw [length_map] at heads
    rw [append_nil] at tails
    simp only [decodeValues, Column.encoding, Column.length, encodeValues, room, ok_bind, heads,
      tails, Column.asRead]
  | text values =>
    simp only [Column.length] at room
    have region : encodeValues (.text values) =
        ((values.map rowText).map List.length).flatMap putVarint ++ (values.map rowText).flatten := by
      rw [flatMap_map]
      rfl
    have total : (values.map rowText).flatten.length = ((values.map rowText).map List.length).sum :=
      length_flatten
    rw [region, length_append] at short
    have lengths := readLengths_append ((values.map rowText).map List.length) 0 (by omega) []
      (values.map rowText).flatten (by rw [nil_append, length_append]; omega)
    have texts := readTexts_append values [] (((values.map rowText).map List.length).flatMap putVarint) []
      (by rw [append_nil, length_append]; omega)
    simp only [nil_append, append_nil, length_nil, Nat.zero_add, length_map] at lengths texts
    have low : (((values.map rowText).map List.length).flatMap putVarint).length +
        ((values.map rowText).map List.length).sum < 2 ^ 64 := by omega
    have inside : ¬ (((values.map rowText).map List.length).flatMap putVarint).length +
        ((values.map rowText).map List.length).sum > (encodeValues (.text values)).length := by
      rw [region, length_append]
      omega
    simp only [decodeValues, Column.encoding, Column.length, Column.nulls, room, ok_bind]
    rw [region] at inside ⊢
    simp only [lengths, ok_bind, word_of_lt low, if_neg inside, texts, Column.asRead]
  | bytes values => cases shape

/-! Pages. -/

@[simp] theorem Encoding.fromNumber_number (encoding : Encoding) :
    Encoding.fromNumber encoding.number = some encoding := by
  cases encoding <;> rfl

@[simp] theorem Codec.fromNumber_number (codec : Codec) : Codec.fromNumber codec.number = some codec := by
  cases codec <;> rfl

def Crates.Restores (crates : Crates) : Prop :=
  ∀ level plain packed, crates.compress level plain = some packed →
    crates.decompress packed plain.length = some plain

@[simp] theorem Column.length_nulls (column : Column) : column.nulls.length = column.length := by
  cases column <;> simp [Column.nulls, Column.length]

theorem header_append {length encoding codec rows uncompressed checksum : Nat} (one : length < 2 ^ 32)
    (two : encoding < 2 ^ 16) (three : codec < 2 ^ 16) (four : rows < 2 ^ 32) (five : uncompressed < 2 ^ 32)
    (six : checksum < 2 ^ 64) (before body after : Bytes) {file : Bytes}
    (is : file = before ++ (putU32 length ++ (putU16 encoding ++ (putU16 codec ++ (putU32 rows ++
      (putU32 uncompressed ++ (putU64 checksum ++ (body ++ after)))))))) :
    getU32 file before.length = .ok length ∧ getU16 file (before.length + 4) = .ok encoding ∧
      getU16 file (before.length + 6) = .ok codec ∧ getU32 file (before.length + 8) = .ok rows ∧
      getU32 file (before.length + 12) = .ok uncompressed ∧ getU64 file (before.length + 16) = .ok checksum ∧
      slice file (before.length + 24) body.length = .ok body := by
  subst is
  have second (rest : Bytes) := getU16_append (before ++ putU32 length) rest encoding two
  have third (rest : Bytes) := getU16_append (before ++ putU32 length ++ putU16 encoding) rest codec three
  have fourth (rest : Bytes) := getU32_append (before ++ putU32 length ++ putU16 encoding ++ putU16 codec) rest rows four
  have fifth (rest : Bytes) := getU32_append
    (before ++ putU32 length ++ putU16 encoding ++ putU16 codec ++ putU32 rows) rest uncompressed five
  have sixth (rest : Bytes) := getU64_append (before ++ putU32 length ++ putU16 encoding ++ putU16 codec ++ putU32 rows ++
    putU32 uncompressed) rest checksum six
  have rest := slice_append (before ++ putU32 length ++ putU16 encoding ++ putU16 codec ++ putU32 rows ++
    putU32 uncompressed ++ putU64 checksum) body after
  simp only [append_assoc, length_append, length_putU32, length_putU16, length_putU64,
    Nat.reduceAdd] at second third fourth fifth sixth rest
  exact ⟨getU32_append before _ length one, second _, third _, fourth _, fifth _, sixth _, rest⟩

section
variable {crates : Crates}

theorem length_storedValues (column : Column) :
    (storedValues crates column).2.length ≤ (encodeValues column).length := by
  unfold storedValues
  dsimp only
  split
  · exact le_refl _
  · split
    · split
      · rename_i less
        exact less.le
      · exact le_refl _
    · exact le_refl _

theorem expand_storedValues (restores : crates.Restores) (column : Column) :
    expand crates (storedValues crates column).1 (storedValues crates column).2 (encodeValues column).length =
      .ok (encodeValues column) := by
  unfold storedValues
  dsimp only
  split
  · simp [expand]
  · split
    · rename_i packed compressed
      split
      · simp [expand, restores _ _ _ compressed]
      · simp [expand]
    · simp [expand]

theorem pageContent_writePage (restores : crates.Restores) {column : Column}
    (short : (encodeValues column).length ≤ maxUncompressedPageBytes) (before after : Bytes)
    (low : before.length < 2 ^ 63) (verify : Bool) : ∃ backing, column.length ≤ 8 * backing ∧
      pageContent crates (before ++ (writePage crates column ++ after)) before.length verify =
        .ok ⟨column.encoding, column.length, column.nulls, encodeValues column, backing⟩ := by
  have few := length_le_encodeValues column
  have stored : (storedValues crates column).2.length ≤ (encodeValues column).length := length_storedValues column
  let body := packBits column.nulls ++ (storedValues crates column).2
  have size : body.length = (column.length + 7) / 8 + (storedValues crates column).2.length := by
    simp [body]
  have room := short
  unfold maxUncompressedPageBytes at room
  have kind : column.encoding.number < 2 ^ 16 := by cases column.encoding <;> decide
  have codec : (storedValues crates column).1.number < 2 ^ 16 := by
    cases (storedValues crates column).1 <;> decide
  obtain ⟨one, two, three, four, five, six, rest⟩ := header_append (by omega : body.length < 2 ^ 32) kind codec
    (by omega : column.length < 2 ^ 32) (by omega : (encodeValues column).length < 2 ^ 32)
    (crates.checksum body).toNat_lt before body after
    (show before ++ (writePage crates column ++ after) = _ by
      simp [writePage, body, append_assoc])
  have bitmap : (part body 0 ((column.length + 7) / 8) : Checked FormatError Bytes) = .ok (packBits column.nulls) := by
    simpa using part_append [] (packBits column.nulls) (storedValues crates column).2
  have values : (part body ((column.length + 7) / 8) body.length : Checked FormatError Bytes) =
      .ok (storedValues crates column).2 := by
    have read := part_append (packBits column.nulls) (storedValues crates column).2 []
    rw [append_nil, length_packBits, Column.length_nulls, ← size] at read
    exact read
  have nulls := nulls_packBits column.nulls
  rw [Column.length_nulls] at nulls
  refine ⟨body.length, by omega, ?_⟩
  simp only [pageContent, pageHeaderBytes, one, two, three, four, five, six, rest, lift_ok, ok_bind,
    word_of_lt (show before.length + 4 < 2 ^ 64 by omega), word_of_lt (show before.length + 6 < 2 ^ 64 by omega),
    word_of_lt (show before.length + 8 < 2 ^ 64 by omega), word_of_lt (show before.length + 12 < 2 ^ 64 by omega),
    word_of_lt (show before.length + 16 < 2 ^ 64 by omega), word_of_lt (show before.length + 24 < 2 ^ 64 by omega),
    Encoding.fromNumber_number, Codec.fromNumber_number, Option.elim_some]
  rw [if_neg (by simp), if_neg (by omega), bitmap, ok_bind, values, ok_bind, if_neg (by omega),
    expand_storedValues restores, lift_ok, ok_bind, allocate_of_le (by omega), ok_bind, nulls]

theorem readPage_writePage (restores : crates.Restores) {column : Column} (typed : column.Typed)
    (shape : column.isRaw = false) (filled : 0 < column.length)
    (short : (encodeValues column).length ≤ maxUncompressedPageBytes) (before after : Bytes)
    (low : before.length < 2 ^ 63) (verify : Bool) :
    readPage crates (before ++ (writePage crates column ++ after)) before.length verify = .ok column.asRead := by
  obtain ⟨backing, backed, content⟩ := pageContent_writePage restores short before after low verify
  rw [readPage, content, ok_bind]
  exact decodeValues_encodeValues typed shape filled short backed

end

/-! No encoding is longer than the bytes its values were read from. -/

section
variable {bytes : Bytes}

theorem inI64_unzigzag {raw : Nat} (fits : raw < 2 ^ 64) : InI64 (unzigzag raw) := by
  unfold InI64 unzigzag
  split <;> omega

theorem zigzag_difference {raw : Nat} (fits : raw < 2 ^ 64) (previous : Int) :
    zigzag (wrapI64 (wrapI64 (previous + unzigzag raw) - previous)) = raw := by
  have same : wrapI64 (wrapI64 (previous + unzigzag raw) - previous) = wrapI64 (unzigzag raw) := by
    rw [wrapI64, wrapI64, Int.bmod_sub_bmod, wrapI64, show previous + unzigzag raw - previous = unzigzag raw by omega]
  rw [same, wrapI64_of_inI64 (inI64_unzigzag fits), zigzag_unzigzag]

theorem readDeltas_shortest {rows start last : Nat} {previous : Int} {values : List Int}
    (read : readDeltas bytes rows start previous = .ok (values, last)) :
    start + (putDeltas previous values).length ≤ last ∧ ∀ v ∈ values, InI64 v := by
  induction rows generalizing start previous values with
  | zero =>
    obtain ⟨rfl, rfl⟩ := Prod.mk.injEq .. ▸ Except.ok.inj read
    simp [putDeltas]
  | succ rows ih =>
    obtain ⟨⟨raw, next⟩, number, rest⟩ := bind_eq_ok.mp read
    obtain ⟨⟨tail, last'⟩, more, done⟩ := bind_eq_ok.mp rest
    obtain ⟨rfl, rfl⟩ := Prod.mk.injEq .. ▸ Except.ok.inj done
    obtain ⟨fits, first⟩ := getVarint_shortest number
    obtain ⟨others, held⟩ := ih more
    refine ⟨?_, forall_mem_cons.mpr ⟨inI64_wrapI64 _, held⟩⟩
    rw [putDeltas, zigzag_difference fits, length_append]
    omega

theorem readVarints_shortest {rows start : Nat} {values : List Nat} (inside : start ≤ bytes.length)
    (read : readVarints bytes rows start = .ok values) : start + (values.flatMap putVarint).length ≤ bytes.length := by
  induction rows generalizing start values with
  | zero =>
    cases read
    simpa using inside
  | succ rows ih =>
    obtain ⟨⟨raw, next⟩, number, rest⟩ := bind_eq_ok.mp read
    obtain ⟨tail, more, done⟩ := bind_eq_ok.mp rest
    cases done
    have first := (getVarint_shortest number).2
    have others := ih (getVarint_ok number).2 more
    rw [flatMap_cons, length_append]
    omega

theorem readFloats_length {rows index : Nat} {values : List UInt64}
    (read : readFloats bytes rows index = .ok values) : values.length = rows := by
  induction rows generalizing index values with
  | zero =>
    cases read
    rfl
  | succ rows ih =>
    obtain ⟨_, _, rest⟩ := bind_eq_ok.mp read
    obtain ⟨_, _, rest⟩ := bind_eq_ok.mp rest
    obtain ⟨tail, more, done⟩ := bind_eq_ok.mp rest
    cases done
    rw [length_cons, ih more]

theorem readBooleans_length {rows index : Nat} {values : List Bool}
    (read : readBooleans bytes rows index = .ok values) : values.length = rows := by
  induction rows generalizing index values with
  | zero =>
    cases read
    rfl
  | succ rows ih =>
    obtain ⟨_, _, rest⟩ := bind_eq_ok.mp read
    obtain ⟨tail, more, done⟩ := bind_eq_ok.mp rest
    cases done
    rw [length_cons, ih more]

theorem headOf_ofBytes {head : Int} (fits : InI64 head) {tail : Bytes} (eight : tail.length = 8) :
    headOf (Id.ofBytes (beBytes 8 (asU64 head) ++ tail)) = head := by
  have whole : (beBytes 8 (asU64 head) ++ tail).length = 16 := by
    rw [length_append, length_beBytes, eight]
  have same : (Id.ofBytes (beBytes 8 (asU64 head) ++ tail)).bytes = beBytes 8 (asU64 head) ++ tail := by
    have bound := leNat_lt (beBytes 8 (asU64 head) ++ tail).reverse
    have back := leBytes_leNat (beBytes 8 (asU64 head) ++ tail).reverse
    rw [length_reverse, whole] at bound back
    rw [Id.bytes, Id.ofBytes, Fin.val_ofNat, Nat.mod_eq_of_lt (bound.trans_le (by norm_num)), back,
      reverse_reverse]
  have first : (beBytes 8 (asU64 head) ++ tail).take 8 = beBytes 8 (asU64 head) :=
    take_left' (length_beBytes 8 _)
  rw [headOf, same, first, beNat_beBytes ((asU64_lt head).trans_le (by norm_num)), asI64_asU64 fits]

theorem readTails_shortest {start : Nat} {heads : List Int} (typed : ∀ v ∈ heads, InI64 v) {index : Nat}
    {values : List Id} (inside : start + index * 8 ≤ bytes.length)
    (read : readTails bytes start heads index = .ok values) :
    values.map headOf = heads ∧ start + (index + values.length) * 8 ≤ bytes.length := by
  induction heads generalizing index values with
  | nil =>
    cases read
    exact ⟨rfl, inside⟩
  | cons head heads ih =>
    obtain ⟨offset, here, rest⟩ := bind_eq_ok.mp read
    obtain ⟨place, there, rest⟩ := bind_eq_ok.mp rest
    obtain ⟨tail, found, rest⟩ := bind_eq_ok.mp rest
    obtain ⟨others, more, done⟩ := bind_eq_ok.mp rest
    obtain ⟨-, rfl⟩ := word_eq_ok.mp here
    obtain ⟨-, rfl⟩ := word_eq_ok.mp there
    cases done
    obtain ⟨bound, eight⟩ := slice_inside (lift_eq_ok.mp found)
    obtain ⟨same, last⟩ := ih (fun v held => typed v (mem_cons_of_mem _ held)) (by omega) more
    rw [map_cons, headOf_ofBytes (typed head mem_cons_self) eight, same, length_cons]
    exact ⟨rfl, by omega⟩

theorem readLengths_shortest {rows start total sum last : Nat} {lengths : List Nat}
    (read : readLengths bytes rows start total = .ok (lengths, sum, last)) :
    start + (lengths.flatMap putVarint).length ≤ last := by
  induction rows generalizing start total lengths with
  | zero =>
    simp only [readLengths, Except.ok.injEq, Prod.mk.injEq] at read
    obtain ⟨rfl, -, rfl⟩ := read
    simp
  | succ rows ih =>
    obtain ⟨⟨length, next⟩, number, rest⟩ := bind_eq_ok.mp read
    dsimp only at rest
    split at rest
    · cases rest
    · obtain ⟨⟨tail, sum', last'⟩, more, done⟩ := bind_eq_ok.mp rest
      simp only [Except.ok.injEq, Prod.mk.injEq] at done
      obtain ⟨rfl, rfl, rfl⟩ := done
      have first := (getVarint_shortest number).2
      have others := ih more
      rw [flatMap_cons, length_append]
      omega

theorem readTexts_shortest {nulls : List Bool} {lengths : List Nat} {start index : Nat}
    {values : List (Option String)} (read : readTexts bytes nulls lengths start index = .ok values) :
    (putRegion (values.map rowText)).length ≤ (lengths.flatMap putVarint).length + lengths.sum := by
  induction lengths generalizing start index values with
  | nil =>
    cases read
    simp [putRegion]
  | cons length lengths ih =>
    obtain ⟨last, here, rest⟩ := bind_eq_ok.mp read
    obtain ⟨-, rfl⟩ := word_eq_ok.mp here
    obtain ⟨raw, region, rest⟩ := bind_eq_ok.mp rest
    have size : raw.length = length := by
      have span := part_length region
      omega
    have grows (value : Option String) (others : List (Option String))
        (first : (putVarint (rowText value).length).length + (rowText value).length ≤
          (putVarint length).length + length)
        (more : (putRegion (others.map rowText)).length ≤ (lengths.flatMap putVarint).length + lengths.sum) :
        (putRegion ((value :: others).map rowText)).length ≤
          ((length :: lengths).flatMap putVarint).length + (length :: lengths).sum := by
      simp only [putRegion, map_cons, flatMap_cons, flatten_cons, length_append,
        sum_cons] at more ⊢
      omega
    split at rest
    · obtain ⟨others, more, done⟩ := bind_eq_ok.mp rest
      cases done
      refine grows none others ?_ (ih more)
      have one := length_putVarint_pos length
      have least : (putVarint (rowText none).length).length + (rowText none).length = 1 := by decide
      omega
    · split at rest
      · cases rest
      · rename_i text valid
        obtain ⟨others, more, done⟩ := bind_eq_ok.mp rest
        cases done
        have same : rowText (some text) = raw := textBytes_of_fromUTF8 valid
        exact grows (some text) others (by rw [same, size]) (ih more)

theorem decodeValues_shortest {encoding : Encoding} {rows backing : Nat} {nulls : List Bool} {column : Column}
    (read : decodeValues bytes encoding rows nulls backing = .ok column) :
    (encodeValues column).length ≤ bytes.length ∧ column.isRaw = false := by
  unfold decodeValues at read
  cases encoding with
  | varintDelta =>
    obtain ⟨_, _, rest⟩ := bind_eq_ok.mp read
    obtain ⟨⟨values, last⟩, found, done⟩ := bind_eq_ok.mp rest
    cases done
    have first := (readDeltas_shortest found).1
    have bound := (readDeltas_ok (Nat.zero_le _) found).2
    exact ⟨by rw [encodeValues]; omega, rfl⟩
  | varint =>
    obtain ⟨_, _, rest⟩ := bind_eq_ok.mp read
    obtain ⟨values, found, done⟩ := bind_eq_ok.mp rest
    cases done
    have whole := readVarints_shortest (Nat.zero_le _) found
    exact ⟨by rw [encodeValues]; omega, rfl⟩
  | plainFixed =>
    obtain ⟨floats, here, rest⟩ := bind_eq_ok.mp read
    obtain ⟨-, rfl⟩ := word_eq_ok.mp here
    split at rest
    · rename_i size
      obtain ⟨_, _, rest⟩ := bind_eq_ok.mp rest
      obtain ⟨values, found, done⟩ := bind_eq_ok.mp rest
      cases done
      have count := readFloats_length found
      have each : (encodeValues (.floats values)).length = values.length * 8 := by
        simp [encodeValues, length_flatMap]
      exact ⟨by rw [each, count, size], rfl⟩
    · split at rest
      · rename_i size
        obtain ⟨_, _, rest⟩ := bind_eq_ok.mp rest
        obtain ⟨values, found, done⟩ := bind_eq_ok.mp rest
        cases done
        have count := readBooleans_length found
        exact ⟨by rw [encodeValues, length_packBits, count, size], rfl⟩
      · cases rest
  | splitPrefix =>
    obtain ⟨_, _, rest⟩ := bind_eq_ok.mp read
    obtain ⟨⟨heads, start⟩, found, rest⟩ := bind_eq_ok.mp rest
    obtain ⟨values, tails, done⟩ := bind_eq_ok.mp rest
    cases done
    obtain ⟨first, held⟩ := readDeltas_shortest found
    have bound := (readDeltas_ok (Nat.zero_le _) found).2
    obtain ⟨same, last⟩ := readTails_shortest held (by omega) tails
    have each : (values.flatMap fun id => id.bytes.drop 8).length = values.length * 8 := by
      simp [length_flatMap]
    refine ⟨?_, rfl⟩
    rw [encodeValues, same, length_append, each]
    omega
  | dictionary => cases read
  | offsetBytes =>
    obtain ⟨_, _, rest⟩ := bind_eq_ok.mp read
    obtain ⟨⟨lengths, total, start⟩, found, rest⟩ := bind_eq_ok.mp rest
    obtain ⟨last, here, rest⟩ := bind_eq_ok.mp rest
    obtain ⟨-, rfl⟩ := word_eq_ok.mp here
    split at rest
    · cases rest
    · obtain ⟨values, texts, done⟩ := bind_eq_ok.mp rest
      cases done
      have first := readLengths_shortest found
      have sum := readLengths_ok found
      have whole : (encodeValues (.text values)).length ≤ (lengths.flatMap putVarint).length + lengths.sum :=
        readTexts_shortest texts
      exact ⟨by omega, rfl⟩

theorem readPage_small {crates : Crates} {start : Nat} {verify : Bool} {column : Column}
    (read : readPage crates bytes start verify = .ok column) :
    (encodeValues column).length ≤ maxUncompressedPageBytes ∧ column.isRaw = false := by
  obtain ⟨page, content, values⟩ := bind_eq_ok.mp read
  obtain ⟨shortest, shape⟩ := decodeValues_shortest values
  exact ⟨shortest.trans (pageContent_bounds content).2.2, shape⟩

end

end TallyOwl.SegmentFormat
