import TallyOwl.Store.Segment.RoundTrip
import TallyOwl.Store.Segment.Write

/-! An index block reads back as the index it was written of, at whatever place of a file, with the
key it was protected with. -/
open List

namespace TallyOwl.SegmentFormat
open Lib Lib.Checked Format Locate Cbor

/-! Filters. -/

namespace BlockFilter

theorem length_putWords (words : List UInt64) :
    (words.flatMap fun word => putU64 word.toNat).length = words.length * 8 := by
  induction words with
  | nil => rfl
  | cons word words ih => simp [ih, Nat.add_mul, Nat.add_comm]

theorem length_write (filter : BlockFilter) : filter.write.length = 4 + filter.words.length * 8 := by
  rw [write, length_append, length_putU32, length_putWords]

theorem readWords_append (words : List UInt64) (start index : Nat) (before after : Bytes)
    (place : before.length = start + 4 + index * 8)
    (small : (before ++ (words.flatMap (fun word => putU64 word.toNat) ++ after)).length < 2 ^ 64) :
    readWords (before ++ (words.flatMap (fun word => putU64 word.toNat) ++ after)) start words.length index =
      .ok words := by
  induction words generalizing index before with
  | nil => rfl
  | cons word words ih =>
    rw [flatMap_cons, append_assoc] at small ⊢
    have found := getU64_append before (words.flatMap (fun word => putU64 word.toNat) ++ after) word.toNat
      word.toNat_lt
    have tail := ih (index + 1) (before ++ putU64 word.toNat)
      (by rw [length_append, length_putU64, place]; omega) (by simpa using small)
    rw [append_assoc] at tail
    rw [place] at found
    have low : start + 4 + index * 8 < 2 ^ 64 := by
      rw [length_append] at small
      omega
    rw [length_cons, readWords, word_of_lt low, ok_bind, found, lift_ok, ok_bind, tail, ok_bind,
      UInt64.ofNat_toNat]

theorem read_append (filter : BlockFilter) (few : filter.words.length < 2 ^ 32) (before after : Bytes)
    (small : (before ++ (filter.write ++ after)).length < 2 ^ 64) :
    read (before ++ (filter.write ++ after)) before.length = .ok (filter, before.length + filter.write.length) := by
  have size := length_putWords filter.words
  have count := getU32_append before ((filter.words.flatMap fun word => putU64 word.toNat) ++ after)
    filter.words.length few
  have whole := slice_append (before ++ putU32 filter.words.length)
    (filter.words.flatMap fun word => putU64 word.toNat) after
  rw [length_append, length_putU32, size, append_assoc] at whole
  rw [write, append_assoc] at small ⊢
  have words := readWords_append filter.words before.length 0 (before ++ putU32 filter.words.length) after
    (by simp) (by simpa using small)
  rw [append_assoc] at words
  simp only [length_append, length_putU32, size] at small ⊢
  rw [read, count, lift_ok, ok_bind, word_of_lt (by omega), ok_bind, word_of_lt (by omega), ok_bind, whole,
    lift_ok, ok_bind, allocate_of_le (by simp only [length_append, length_putU32, size]; omega), ok_bind,
    words, ok_bind, word_of_lt (by omega), ok_bind, Nat.add_assoc]

end BlockFilter

theorem readFilters_append (filters : List BlockFilter) (before after : Bytes)
    (small : (before ++ (filters.flatMap BlockFilter.write ++ after)).length < 2 ^ 32) :
    readFilters (before ++ (filters.flatMap BlockFilter.write ++ after)) filters.length before.length =
      .ok filters := by
  induction filters generalizing before with
  | nil => rfl
  | cons filter filters ih =>
    rw [flatMap_cons, append_assoc] at small ⊢
    have size := filter.length_write
    have first := filter.read_append (by simp only [length_append] at small; omega) before
      (filters.flatMap BlockFilter.write ++ after) (by omega)
    have tail := ih (before ++ filter.write) (by simpa using small)
    rw [append_assoc, length_append] at tail
    rw [length_cons, readFilters, first, ok_bind]
    dsimp only
    rw [tail, ok_bind]

/-! Postings. -/

namespace TermPostings

def putTerm (term : Bytes × List Nat) : Bytes :=
  putVarint term.1.length ++ (term.1 ++ (putVarint term.2.length ++ putRows 0 term.2))

theorem write_eq (postings : TermPostings) : write postings = putU32 postings.length ++ postings.flatMap putTerm :=
  rfl

theorem length_le_putRows (previous : Nat) (rows : List Nat) : rows.length ≤ (putRows previous rows).length := by
  induction rows generalizing previous with
  | nil => simp
  | cons row rows ih =>
    have more := length_putVarint_pos (row - previous)
    have rest := ih row
    simp only [putRows, length_append, length_cons]
    omega

theorem readRows_append {rows : List Nat} {previous : Nat} (rising : rows.Pairwise (· < ·))
    (above : ∀ row ∈ rows, previous ≤ row) (few : ∀ row ∈ rows, row < 2 ^ 32) (before after : Bytes)
    (small : (before ++ (putRows previous rows ++ after)).length < 2 ^ 64) :
    readRows (before ++ (putRows previous rows ++ after)) rows.length before.length previous =
      .ok (rows, before.length + (putRows previous rows).length) := by
  induction rows generalizing previous before with
  | nil => simp [readRows, putRows]
  | cons row rows ih =>
    obtain ⟨first, later⟩ := pairwise_cons.mp rising
    have low := above row mem_cons_self
    have high := few row mem_cons_self
    rw [putRows, append_assoc] at small ⊢
    have number := getVarint_append (show row - previous < 2 ^ 64 by omega) before
      (putRows row rows ++ after) small
    have tail := ih later (fun r inside => (first r inside).le)
      (fun r inside => few r (mem_cons_of_mem _ inside)) (before ++ putVarint (row - previous))
      (by simpa using small)
    rw [append_assoc, length_append] at tail
    have same : (previous + (row - previous)) % 2 ^ 32 = row := by
      rw [Nat.add_sub_cancel' low, Nat.mod_eq_of_lt high]
    rw [length_cons, readRows, number, ok_bind]
    dsimp only
    rw [same, tail, ok_bind, length_append, Nat.add_assoc]

theorem put_last {held : TermPostings} {term : Bytes} (rows : List Nat) (above : ∀ e ∈ held, e.1 < term) :
    put term rows held = held ++ [(term, rows)] := by
  induction held with
  | nil => rfl
  | cons e held ih =>
    have less := above e mem_cons_self
    have other : term ≠ e.1 := fun same => List.lt_irrefl _ (same ▸ less)
    have rest := ih fun d inside => above d (mem_cons_of_mem _ inside)
    rw [put, if_neg other, if_neg (List.lt_asymm less), rest, cons_append]

/-- Terms rise, and the rows of each do, within the numbers of rows. -/
structure InOrder (postings : TermPostings) : Prop where
  terms : postings.Pairwise fun a b => a.1 < b.1
  rows : ∀ term ∈ postings, term.2.Pairwise (· < ·)
  few : ∀ term ∈ postings, ∀ row ∈ term.2, row < 2 ^ 32

theorem readTerms_append {held terms : TermPostings} (ordered : InOrder (held ++ terms)) (before after : Bytes)
    (small : (before ++ (terms.flatMap putTerm ++ after)).length < 2 ^ 64) :
    readTerms (before ++ (terms.flatMap putTerm ++ after)) terms.length before.length held = .ok (held ++ terms) := by
  induction terms generalizing held before with
  | nil => simp [readTerms]
  | cons term terms ih =>
    have inside : term ∈ held ++ term :: terms := by simp
    have above : ∀ e ∈ held, e.1 < term.1 := fun e there =>
      (pairwise_append.mp ordered.terms).2.2 e there term mem_cons_self
    have counted := length_le_putRows 0 term.2
    have tail := ih (show InOrder ((held ++ [term]) ++ terms) by simpa using ordered) (before ++ putTerm term)
      (by simpa using small)
    rw [flatMap_cons, append_assoc] at small ⊢
    have room := small
    simp only [length_append, putTerm] at room
    have length := getVarint_append (show term.1.length < 2 ^ 64 by omega) before
      (term.1 ++ (putVarint term.2.length ++ (putRows 0 term.2 ++ (terms.flatMap putTerm ++ after))))
      (by simp only [length_append]; omega)
    have text := slice_append (before ++ putVarint term.1.length) term.1
      (putVarint term.2.length ++ (putRows 0 term.2 ++ (terms.flatMap putTerm ++ after)))
    have count := getVarint_append (show term.2.length < 2 ^ 64 by omega)
      (before ++ (putVarint term.1.length ++ term.1)) (putRows 0 term.2 ++ (terms.flatMap putTerm ++ after))
      (by simp only [length_append]; omega)
    have rows := readRows_append (ordered.rows term inside) (fun r _ => Nat.zero_le r)
      (ordered.few term inside)
      (before ++ (putVarint term.1.length ++ (term.1 ++ putVarint term.2.length)))
      (terms.flatMap putTerm ++ after) (by simp only [length_append]; omega)
    simp only [append_assoc, length_append, ← Nat.add_assoc] at length text count rows tail
    rw [length_cons, readTerms]
    simp only [putTerm, append_assoc] at tail ⊢
    rw [length, ok_bind]
    dsimp only
    rw [text, lift_ok, ok_bind, word_of_lt (by omega), ok_bind, count, ok_bind]
    dsimp only
    rw [if_neg (by simp only [length_append]; omega),
      allocate_of_le (by simp only [length_append]; omega), ok_bind, rows, ok_bind]
    dsimp only
    rw [put_last _ above]
    simp only [length_append, ← Nat.add_assoc, singleton_append] at tail ⊢
    exact tail

theorem read_write {postings : TermPostings} (ordered : InOrder postings)
    (small : (write postings).length < 2 ^ 32) : read (write postings) 0 = .ok postings := by
  have filled : ∀ term ∈ postings, 0 < (putTerm term).length := by
    intro term _
    have := length_putVarint_pos term.1.length
    simp only [putTerm, length_append]
    omega
  have members := length_le_flatMap postings filled
  rw [write_eq, length_append, length_putU32] at small
  have count := getU32_append [] (postings.flatMap putTerm) postings.length (by omega)
  have terms := @readTerms_append [] postings ordered (putU32 postings.length) []
    (by simp only [length_append, length_putU32, append_nil]; omega)
  simp only [nil_append, length_nil, append_nil, length_putU32] at count terms
  rw [write_eq, read, count, lift_ok, ok_bind, word_of_lt (by omega), ok_bind,
    if_neg (by simp only [length_append, length_putU32]; omega)]
  exact terms

end TermPostings

/-! Fingerprints. -/

namespace UniqueLookup

theorem length_putEntries (entries : UniqueLookup) :
    (entries.flatMap fun e => putU64 e.1 ++ putU32 e.2).length = entries.length * 12 := by
  induction entries with
  | nil => rfl
  | cons e entries ih =>
    simp only [flatMap_cons, length_append, length_putU64, length_putU32, ih, length_cons]
    omega

/-- A fingerprint is a `u64` and a row a `u32`. -/
def Fits (entries : UniqueLookup) : Prop := ∀ e ∈ entries, e.1 < 2 ^ 64 ∧ e.2 < 2 ^ 32

theorem readEntries_append {entries : UniqueLookup} (fits : Fits entries) (start index : Nat)
    (before after : Bytes) (place : before.length = start + 4 + index * 12)
    (small : (before ++ (entries.flatMap (fun e => putU64 e.1 ++ putU32 e.2) ++ after)).length < 2 ^ 64) :
    readEntries (before ++ (entries.flatMap (fun e => putU64 e.1 ++ putU32 e.2) ++ after)) start
      entries.length index = .ok entries := by
  induction entries generalizing index before with
  | nil => rfl
  | cons e entries ih =>
    obtain ⟨hash, row⟩ := fits e mem_cons_self
    rw [flatMap_cons, append_assoc, append_assoc] at small ⊢
    have first := getU64_append before
      (putU32 e.2 ++ ((entries.flatMap fun e => putU64 e.1 ++ putU32 e.2) ++ after)) e.1 hash
    have second := getU32_append (before ++ putU64 e.1)
      ((entries.flatMap fun e => putU64 e.1 ++ putU32 e.2) ++ after) e.2 row
    have tail := ih (fun d inside => fits d (mem_cons_of_mem _ inside)) (index + 1)
      (before ++ (putU64 e.1 ++ putU32 e.2))
      (by rw [length_append, length_append, length_putU64, length_putU32, place]; omega)
      (by simpa using small)
    rw [length_append, length_putU64, place, append_assoc] at second
    rw [place] at first
    simp only [append_assoc] at tail
    have low : start + 4 + index * 12 + 8 < 2 ^ 64 := by
      simp only [length_append, length_putU64, place] at small
      omega
    rw [length_cons, readEntries, word_of_lt (by omega), ok_bind, first, lift_ok, ok_bind,
      word_of_lt low, ok_bind, second, lift_ok, ok_bind, tail, ok_bind]

theorem read_write {entries : UniqueLookup} (fits : Fits entries) (small : (write entries).length < 2 ^ 32) :
    read (write entries) 0 = .ok entries := by
  have size := length_putEntries entries
  rw [write, length_append, length_putU32, size] at small
  have count := getU32_append [] (entries.flatMap fun e => putU64 e.1 ++ putU32 e.2) entries.length (by omega)
  have whole := slice_append (putU32 entries.length) (entries.flatMap fun e => putU64 e.1 ++ putU32 e.2) []
  have each := readEntries_append fits 0 0 (putU32 entries.length) [] (by simp)
    (by simp only [length_append, length_putU32, size, length_nil]; omega)
  simp only [nil_append, length_nil, append_nil, length_putU32, size] at count whole each
  rw [read, write, count, lift_ok, ok_bind, word_of_lt (by omega), ok_bind, word_of_lt (by omega), ok_bind,
    whole, lift_ok, ok_bind,
    allocate_of_le (by simp only [length_append, length_putU32, size]; omega), ok_bind, each, ok_bind,
    word_of_lt (by omega), ok_bind]

end UniqueLookup

/-! Blocks. -/

def ColumnIndex.Fits : ColumnIndex → Prop
  | .blockFilter _ => True
  | .termPostings postings => postings.InOrder
  | .uniqueLookup entries => entries.Fits

theorem decodeIndex_body {index : ColumnIndex} (fits : index.Fits) (small : index.body.length < 2 ^ 32) :
    decodeIndex index.body index.layout = .ok index := by
  cases index with
  | blockFilter filters =>
    have members := length_le_flatMap filters (f := BlockFilter.write) fun filter _ => by
      rw [BlockFilter.length_write]
      omega
    have body : (ColumnIndex.blockFilter filters).body = putU32 filters.length ++ filters.flatMap BlockFilter.write :=
      rfl
    have size := congrArg List.length body
    rw [length_append, length_putU32] at size
    have count := getU32_append [] (filters.flatMap BlockFilter.write) filters.length (by omega)
    have each := readFilters_append filters (putU32 filters.length) []
      (by simp only [length_append, length_putU32, append_nil]; omega)
    simp only [nil_append, length_nil, append_nil, length_putU32] at count each
    rw [← body] at count each
    rw [ColumnIndex.layout, decodeIndex, count, lift_ok, ok_bind, if_neg (by omega),
      allocate_of_le (by omega), ok_bind, each, ok_bind]
  | termPostings postings =>
    simp only [decodeIndex, ColumnIndex.body, ColumnIndex.layout, TermPostings.read_write fits small, ok_bind]
  | uniqueLookup entries =>
    simp only [decodeIndex, ColumnIndex.body, ColumnIndex.layout, UniqueLookup.read_write fits small, ok_bind]

@[simp] theorem IndexLayout.fromNumber_number (layout : IndexLayout) :
    IndexLayout.fromNumber layout.number = some layout := by
  cases layout <;> rfl

def overheadBytes : Nat := 28

/-- A cipher opens what it sealed under the same context, and adds a nonce and a tag. -/
structure Cipher.Lawful (cipher : Cipher) : Prop where
  opens : ∀ plain context body, cipher.sealBlock plain context = .ok body →
    cipher.openBlock body context = .ok plain
  grows : ∀ plain context body, cipher.sealBlock plain context = .ok body →
    body.length = plain.length + overheadBytes

section
variable {crates : Crates} {cipher : Option Cipher} {segmentId : Id}

theorem openedBody_sealedBody (lawful : ∀ c, cipher = some c → c.Lawful) {start : Nat} {plain body : Bytes}
    (stored : sealedBody cipher segmentId start plain = .ok body) :
    openedBody cipher segmentId start body = .ok plain ∧ plain.length ≤ body.length ∧
      body.length ≤ plain.length + overheadBytes := by
  cases cipher with
  | none =>
    cases stored
    exact ⟨rfl, le_refl _, Nat.le_add_right _ _⟩
  | some c =>
    simp only [sealedBody, openedBody] at stored ⊢
    cases made : c.sealBlock plain (blockContext segmentId start) with
    | error e =>
      rw [made] at stored
      cases stored
    | ok whole =>
      rw [made] at stored
      cases stored
      have size := (lawful c rfl).grows _ _ _ made
      rw [(lawful c rfl).opens _ _ _ made]
      exact ⟨rfl, by omega, by omega⟩

theorem readIndex_append (lawful : ∀ c, cipher = some c → c.Lawful) {index : ColumnIndex} (fits : index.Fits)
    (small : index.body.length + overheadBytes < 2 ^ 32) {before block : Bytes}
    (stored : writeIndexMaybeEncrypted crates cipher segmentId before.length index = .ok block)
    (after : Bytes) (low : before.length < 2 ^ 63) (verify : Bool) :
    readIndexMaybeEncrypted crates cipher segmentId before.length (before ++ (block ++ after)) verify = .ok index := by
  unfold writeIndexMaybeEncrypted at stored
  cases made : sealedBody cipher segmentId before.length index.body with
  | error e =>
    rw [made] at stored
    cases stored
  | ok body =>
    rw [made] at stored
    cases stored
    obtain ⟨opened, -, most⟩ := openedBody_sealedBody lawful made
    have kind : index.layout.number < 2 ^ 16 := by cases index.layout <;> decide
    have length := getU32_append before (putU16 index.layout.number ++
      (putU64 (crates.checksum body).toNat ++ (body ++ after))) body.length (by omega)
    have layout := getU16_append (before ++ putU32 body.length)
      (putU64 (crates.checksum body).toNat ++ (body ++ after)) index.layout.number kind
    have checksum := getU64_append (before ++ (putU32 body.length ++ putU16 index.layout.number))
      (body ++ after) (crates.checksum body).toNat (crates.checksum body).toNat_lt
    have whole := slice_append (before ++ (putU32 body.length ++ (putU16 index.layout.number ++
      putU64 (crates.checksum body).toNat))) body after
    simp only [append_assoc, length_append, length_putU32, length_putU16, length_putU64,
      Nat.reduceAdd] at length layout checksum whole ⊢
    simp only [readIndexMaybeEncrypted, indexHeaderBytes, length, layout, checksum, whole, lift_ok, ok_bind,
      word_of_lt (show before.length + 4 < 2 ^ 64 by omega), word_of_lt (show before.length + 6 < 2 ^ 64 by omega),
      word_of_lt (show before.length + 14 < 2 ^ 64 by omega)]
    rw [if_neg (by simp), opened, lift_ok, ok_bind, IndexLayout.fromNumber_number]
    exact decodeIndex_body fits (by omega)

end

end TallyOwl.SegmentFormat
