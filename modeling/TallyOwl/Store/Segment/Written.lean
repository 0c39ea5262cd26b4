import TallyOwl.Store.Segment.Opened
import TallyOwl.Store.Segment.Projection
import TallyOwl.Store.Segment.Split

/-! What a writer's file says when it is opened: the description and the directory it was written with,
and for each column it indexes an index that answers for the rows. -/
open List TallyOwl.Lib.OrderedMap

namespace TallyOwl.SegmentFormat
open Lib Lib.Checked Format Locate Cbor RowCodec

/-! Lengths of columns and of their pieces. -/

theorem length_valueColumn (floatText : UInt64 → String) (suffix : String) (values : List (Option PropertyValue)) :
    (valueColumn floatText suffix values).length = values.length := by
  unfold valueColumn
  split <;> simp [Column.length]

theorem length_partColumn (floatText : UInt64 → String) (rows : List EventRow) (key suffix : String) :
    (partColumn floatText rows key suffix).length = rows.length := by
  unfold partColumn
  split
  · simp [Column.length]
  · split
    · simp [Column.length]
    · rw [length_valueColumn, length_map]

theorem length_of_toColumns {floatText : UInt64 → String} {rows : List EventRow} {e : String × Column}
    (inside : e ∈ (toColumns floatText rows).entries) : e.2.length = rows.length := by
  rcases mem_projected (mem_toColumns.mp inside) with plain | ⟨key, suffix, -, rfl⟩
  · simp only [envelope, mem_cons, not_mem_nil, or_false] at plain
    rcases plain with rfl | rfl | rfl | rfl | rfl | rfl | rfl | rfl | rfl | rfl | rfl | rfl | rfl <;>
      simp [Column.length]
  · exact length_partColumn floatText rows key suffix

theorem Column.length_slice_le (column : Column) (start last : Nat) : (column.slice start last).length ≤ column.length := by
  cases column <;> simp [Column.slice, Column.length]

theorem length_piece_le {crates : Crates} {column piece : Column} {target : Nat}
    (inside : piece ∈ splitIntoPages crates column target) : piece.length ≤ column.length := by
  rcases Nat.eq_zero_or_pos column.length with none | filled
  · rw [splitIntoPages, if_pos none] at inside
    cases inside
  · by_cases fits : (writePage crates column).length ≤ target
    · rw [splitIntoPages_whole filled fits, mem_singleton] at inside
      rw [inside]
    · rw [splitIntoPages_pieces filled fits] at inside
      obtain ⟨start, rows, rfl, -⟩ := piecesFrom_spec rowsEachPage_pos (fun _ => .first) inside
      exact column.length_slice_le start (start + rows)

theorem listedRows_eq {groups : List RowGroup} (small : (groups.map RowGroup.rows).sum < 2 ^ 64) :
    listedRows groups = (groups.map RowGroup.rows).sum := by
  have counted (groups : List RowGroup) (total : Nat) (small : total + (groups.map RowGroup.rows).sum < 2 ^ 64) :
      groups.foldl (fun total group => min (total + group.rows) (2 ^ 64 - 1)) total =
        total + (groups.map RowGroup.rows).sum := by
    induction groups generalizing total with
    | nil => simp
    | cons group groups ih =>
      rw [map_cons, sum_cons] at small ⊢
      rw [foldl_cons, min_eq_left (by omega), ih _ (by omega), Nat.add_assoc]
  rw [listedRows, counted groups 0 (by omega), Nat.zero_add]

namespace SegmentWriter
variable {crates : Crates} {writer : SegmentWriter} {rows : List EventRow} {segment : Segment}

/-! Row groups. -/

theorem flatten_splitRows : (writer.splitRows crates rows).flatten = rows :=
  flatten_chunks (Nat.lt_of_lt_of_le one_pos (le_max_right _ _)) rows

theorem sum_splitRows : ((writer.splitRows crates rows).map List.length).sum = rows.length := by
  rw [← length_flatten, flatten_splitRows]

theorem length_splitRows_le : (writer.splitRows crates rows).length ≤ rows.length := by
  rw [splitRows, length_chunks]
  exact divCeil_le _ (Nat.lt_of_lt_of_le one_pos (le_max_right _ _))

variable {entry : Nat × List EventRow}

@[simp] theorem length_numbered (first : Nat) (groups : List (List EventRow)) :
    (numbered first groups).length = groups.length := by
  induction groups generalizing first with
  | nil => rfl
  | cons group groups ih => simp [numbered, ih]

theorem mem_numbered {first : Nat} {groups : List (List EventRow)} (inside : entry ∈ numbered first groups) :
    entry.2 ∈ groups ∧ entry.1 + entry.2.length ≤ first + (groups.map List.length).sum := by
  induction groups generalizing first with
  | nil => cases inside
  | cons group groups ih =>
    rw [map_cons, sum_cons]
    rcases mem_cons.mp inside with rfl | later
    · exact ⟨mem_cons_self, by dsimp only; omega⟩
    · obtain ⟨there, low⟩ := ih later
      exact ⟨mem_cons_of_mem _ there, by omega⟩

theorem map_numbered (first : Nat) (groups : List (List EventRow)) : (numbered first groups).map Prod.snd = groups := by
  induction groups generalizing first with
  | nil => rfl
  | cons group groups ih => simp [numbered, ih]

theorem lengths_numbered (first : Nat) (groups : List (List EventRow)) :
    ((numbered first groups).map fun entry => entry.2.length) = groups.map List.length := by
  induction groups generalizing first with
  | nil => rfl
  | cons group groups ih => simp [numbered, ih]

variable {start : Nat} {block : Bytes}

theorem putGroup_ok {group : RowGroup} (put : writer.putGroup crates start entry = .ok (block, group)) :
    ∃ pages, layOut (writer.putColumn crates) start (toColumns crates.floatText entry.2).entries = .ok (block, pages) ∧
      group = ⟨entry.1, entry.2.length, .ofList pages⟩ := by
  unfold putGroup at put
  cases laid : layOut (writer.putColumn crates) start (toColumns crates.floatText entry.2).entries with
  | error e => simp [laid, bind, Except.bind] at put
  | ok made =>
    simp only [laid, bind, Except.bind, Except.ok.injEq, Prod.mk.injEq] at put
    exact ⟨made.2, by rw [← put.1], put.2.symm⟩

theorem putColumn_ok {entry : String × Column} {place : String × List PageRef}
    (put : writer.putColumn crates start entry = .ok (block, place)) :
    place.1 = entry.1 ∧ layOut (writer.putPage crates) start (splitIntoPages crates entry.2 writer.pageTargetBytes) =
      .ok (block, place.2) := by
  unfold putColumn at put
  cases laid : layOut (writer.putPage crates) start (splitIntoPages crates entry.2 writer.pageTargetBytes) with
  | error e => simp [laid, bind, Except.bind] at put
  | ok made =>
    simp only [laid, bind, Except.bind, Except.ok.injEq, Prod.mk.injEq] at put
    obtain ⟨rfl, rfl⟩ := put
    exact ⟨rfl, rfl⟩

theorem putPage_ok {piece : Column} {ref : PageRef} (put : writer.putPage crates start piece = .ok (block, ref)) :
    writePageMaybeEncrypted crates writer.cipher writer.segmentId start piece = .ok block ∧
      ref = ⟨start, piece.length⟩ := by
  unfold putPage at put
  cases made : writePageMaybeEncrypted crates writer.cipher writer.segmentId start piece with
  | error e => simp [made, bind, Except.bind] at put
  | ok block' =>
    simp only [made, bind, Except.bind, Except.ok.injEq, Prod.mk.injEq] at put
    exact ⟨by rw [put.1], put.2.symm⟩

theorem putIndex_ok {entry : String × ColumnIndex}
    {place : String × (Nat × IndexLayout)} (put : writer.putIndex crates start entry = .ok (block, place)) :
    writeIndexMaybeEncrypted crates writer.cipher writer.segmentId start entry.2 = .ok block ∧
      place = (entry.1, start, entry.2.layout) := by
  unfold putIndex at put
  cases made : writeIndexMaybeEncrypted crates writer.cipher writer.segmentId start entry.2 with
  | error e => simp [made, bind, Except.bind] at put
  | ok block' =>
    simp only [made, bind, Except.bind, Except.ok.injEq, Prod.mk.injEq] at put
    exact ⟨by rw [put.1], put.2.symm⟩

theorem sum_rows_of_layOut {groups : List (Nat × List EventRow)} {written : Bytes}
    {rowGroups : List RowGroup} (laid : layOut (writer.putGroup crates) start groups = .ok (written, rowGroups)) :
    rowGroups.map RowGroup.rows = groups.map fun entry => entry.2.length := by
  induction groups generalizing start written rowGroups with
  | nil =>
    obtain ⟨-, rfl⟩ := Prod.mk.inj (Except.ok.inj laid)
    rfl
  | cons entry groups ih =>
    obtain ⟨block, place, blocks, later, first, rest, -, rfl⟩ := layOut_cons_ok laid
    obtain ⟨pages, -, rfl⟩ := putGroup_ok first
    rw [map_cons, map_cons, ih rest]

/-! The whole file. -/

structure Parts (crates : Crates) (writer : SegmentWriter) (rows : List EventRow) (segment : Segment) where
  headerBytes : Bytes
  pageBytes : Bytes
  indexBytes : Bytes
  footerBytes : Bytes
  indexes : List (String × ColumnIndex)
  places : List (String × (Nat × IndexLayout))
  filled : rows ≠ []
  built : buildIndexes crates.checksum (writer.splitRows crates rows) (toColumns crates.floatText rows).entries =
    .ok indexes
  paged : layOut (writer.putGroup crates) (prologueBytes + headerBytes.length)
    (numbered 0 (writer.splitRows crates rows)) = .ok (pageBytes, segment.footer.rowGroups)
  indexed : layOut (writer.putIndex crates) (prologueBytes + headerBytes.length + pageBytes.length) indexes =
    .ok (indexBytes, places)
  described : { segment.header with uncompressedBytes := 0, compressedBytes := 0 } =
    writer.buildHeader rows (writer.splitRows crates rows).length
  counted : segment.header.compressedBytes = segment.bytes.length
  header : headerBytes = encode (headerToCbor (writer.buildHeader rows (writer.splitRows crates rows).length))
  listed : segment.footer.indexes = .ofList places
  hashed : segment.footer.payloadHash = crates.contentAddress (headerBytes ++ (pageBytes ++ indexBytes))
  keyed : segment.footer.keyReference = writer.cipher.map fun cipher => ⟨algorithmAes256Gcm, cipher.generation⟩
  footer : footerBytes = encode (footerToCbor segment.footer)
  addressed : ∃ payload, segment.contentAddress = crates.contentAddress payload
  laid : segment.bytes =
    prologue headerBytes.length (prologueBytes + (headerBytes ++ (pageBytes ++ indexBytes)).length)
      segment.contentAddress ++ ((headerBytes ++ (pageBytes ++ indexBytes)) ++ (footerBytes ++
        trailer crates (prologueBytes + (headerBytes ++ (pageBytes ++ indexBytes)).length) footerBytes))

theorem write_parts (written : writer.write crates rows = .ok segment) :
    Nonempty (Parts crates writer rows segment) := by
  unfold write at written
  split at written
  · cases written
  · rename_i filled
    obtain ⟨indexes, built, written⟩ := bind_eq_ok.mp written
    obtain ⟨⟨pageBytes, rowGroups⟩, paged, written⟩ := bind_eq_ok.mp written
    obtain ⟨⟨indexBytes, places⟩, indexed, written⟩ := bind_eq_ok.mp written
    cases written
    exact ⟨{
      headerBytes := encode (headerToCbor (writer.buildHeader rows (writer.splitRows crates rows).length))
      pageBytes, indexBytes, indexes, places, filled, built
      footerBytes := _
      paged := lift_eq_ok.mp paged
      indexed := lift_eq_ok.mp indexed
      described := rfl
      counted := rfl
      header := rfl
      listed := rfl
      hashed := rfl
      keyed := rfl
      footer := rfl
      addressed := ⟨_, rfl⟩
      laid := rfl }⟩

/-! What a reader gets back. -/

structure Fits (writer : SegmentWriter) : Prop where
  tabletId : writer.tabletId < 2 ^ 64
  virtualShard : writer.virtualShard < 2 ^ 64
  log : writer.logRange.1 < 2 ^ 64 ∧ writer.logRange.2 < 2 ^ 64
  projectorVersion : writer.projectorVersion < 2 ^ 64
  generation : ∀ c, writer.cipher = some c → c.generation < 2 ^ 32

/-- Every number that a file keeps in thirty-two bits is one: the rows it indexes, and the lengths of its
description, its directory and its index blocks. -/
structure LengthsFit (crates : Crates) (writer : SegmentWriter) (rows : List EventRow) (segment : Segment) :
    Prop where
  numbers : rows.length ≤ 2 ^ 32
  header : (encode (headerToCbor segment.header)).length < 2 ^ 32
  footer : (encode (footerToCbor segment.footer)).length < 2 ^ 32
  indexes : ∀ indexes, buildIndexes crates.checksum (writer.splitRows crates rows)
    (toColumns crates.floatText rows).entries = .ok indexes →
      ∀ e ∈ indexes, e.2.body.length + overheadBytes < 2 ^ 32

theorem inI64_timeRange {pick : EventRow → Int} (each : ∀ row ∈ rows, InI64 (pick row)) :
    InI64 (timeRange pick rows).1 ∧ InI64 (timeRange pick rows).2 := by
  have folded (rows : List EventRow) (range : Int × Int) (each : ∀ row ∈ rows, InI64 (pick row))
      (low : InI64 range.1) (high : InI64 range.2) :
      InI64 (rows.foldl (fun range row => (min range.1 (pick row), max range.2 (pick row))) range).1 ∧
        InI64 (rows.foldl (fun range row => (min range.1 (pick row), max range.2 (pick row))) range).2 := by
    induction rows generalizing range with
    | nil => exact ⟨low, high⟩
    | cons row rows ih =>
      obtain ⟨own, rest⟩ := forall_mem_cons.mp each
      unfold InI64 at own low high
      refine ih _ rest ?_ ?_
      · unfold InI64
        dsimp only
        omega
      · unfold InI64
        dsimp only
        omega
  exact folded rows _ each (by unfold InI64; omega) (by unfold InI64; omega)

theorem headerFits_buildHeader (fits : writer.Fits) (typed : ∀ row ∈ rows, RowFits crates.floatText row)
    (few : rows.length < 2 ^ 64) : HeaderFits (writer.buildHeader rows (writer.splitRows crates rows).length) := by
  have groups := @length_splitRows_le crates writer rows
  refine ⟨fits.tabletId, fits.virtualShard, inI64_timeRange fun row inside => (typed row inside).occurredAt,
    inI64_timeRange fun row inside => (typed row inside).receivedAt,
    inI64_timeRange fun row inside => (typed row inside).committedAt, fits.log, ?_, ?_, fits.projectorVersion⟩
  · show rows.length < 2 ^ 64
    omega
  · show (writer.splitRows crates rows).length < 2 ^ 64
    omega

theorem pages_within {group : RowGroup} (put : writer.putGroup crates start entry = .ok (block, group)) :
    ∀ e ∈ group.pages.entries, ∀ ref ∈ e.2, ref.offset ≤ start + block.length ∧ ref.rows ≤ entry.2.length := by
  obtain ⟨pages, laid, rfl⟩ := putGroup_ok put
  intro e inside ref there
  obtain ⟨place, listed, rfl⟩ : ∃ place ∈ pages, e = (place.1, place.2) := by
    rcases mem_foldl_insert inside with old | ⟨place, listed, same⟩
    · cases old
    · exact ⟨place, listed, same⟩
  obtain ⟨column, held, stands⟩ := mem_layOut laid listed
  obtain ⟨first, own, made, after, before⟩ := stands.within
  obtain ⟨-, pieces⟩ := putColumn_ok made
  obtain ⟨piece, cut, spot⟩ := mem_layOut pieces there
  obtain ⟨begins, page, stored, later, earlier⟩ := spot.within
  obtain ⟨-, rfl⟩ := putPage_ok stored
  have size := length_piece_le cut
  rw [length_of_toColumns held] at size
  exact ⟨by dsimp only; omega, size⟩

namespace Parts

theorem sum_rows (parts : Parts crates writer rows segment) :
    (segment.footer.rowGroups.map RowGroup.rows).sum = rows.length := by
  rw [sum_rows_of_layOut parts.paged, lengths_numbered, sum_splitRows]

theorem footerFits (parts : Parts crates writer rows segment) (fits : writer.Fits) (few : rows.length < 2 ^ 64)
    (small : segment.bytes.length < 2 ^ 63) (hash : ∀ bytes, (crates.contentAddress bytes).length = 32) : FooterFits segment.footer := by
  obtain ⟨payload, address⟩ := parts.addressed
  have size : prologueBytes + (parts.headerBytes ++ (parts.pageBytes ++ parts.indexBytes)).length ≤
      segment.bytes.length := by
    have whole := congrArg List.length parts.laid
    rw [length_append, length_prologue _ _ (by rw [address, hash]),
      @length_append _ (parts.headerBytes ++ (parts.pageBytes ++ parts.indexBytes))] at whole
    unfold prologueBytes
    omega
  rw [length_append, length_append] at size
  refine ⟨fun group inside => ?_, fun entry inside => ?_, by rw [parts.hashed, hash], fun key held => ?_⟩
  · obtain ⟨entry, there, stands⟩ := mem_layOut parts.paged inside
    obtain ⟨first, block, put, after, before⟩ := stands.within
    obtain ⟨-, low⟩ := mem_numbered there
    rw [sum_splitRows] at low
    have within := pages_within put
    obtain ⟨pages, -, rfl⟩ := putGroup_ok put
    refine ⟨by dsimp only; omega, by dsimp only; omega, fun e own ref listed => ?_⟩
    obtain ⟨offset, counted⟩ := within e own ref listed
    exact ⟨by omega, by omega⟩
  · rw [parts.listed] at inside
    rcases mem_foldl_insert inside with old | ⟨place, listed, rfl⟩
    · cases old
    · obtain ⟨index, -, stands⟩ := mem_layOut parts.indexed listed
      obtain ⟨first, block, put, after, before⟩ := stands.within
      obtain ⟨-, rfl⟩ := putIndex_ok put
      dsimp only
      omega
  · rw [parts.keyed] at held
    obtain ⟨cipher, has, rfl⟩ := Option.map_eq_some_iff.mp held
    exact ⟨(by decide : algorithmAes256Gcm < 2 ^ 16), fits.generation cipher has⟩

theorem opens (parts : Parts crates writer rows segment) (fits : writer.Fits)
    (typed : ∀ row ∈ rows, RowFits crates.floatText row) (few : rows.length < 2 ^ 64)
    (header : (encode (headerToCbor segment.header)).length < 2 ^ 32)
    (footer : (encode (footerToCbor segment.footer)).length < 2 ^ 32) (small : segment.bytes.length < 2 ^ 63)
    (hash : ∀ bytes, (crates.contentAddress bytes).length = 32) (verify : Bool) :
    openSegment crates segment.bytes verify =
      .ok { segment with header := { segment.header with uncompressedBytes := 0 } } := by
  obtain ⟨payload, address⟩ := parts.addressed
  have described := headerFits_buildHeader fits typed few
  have listed := parts.footerFits fits few small hash
  have counted : (segment.footer.rowGroups.map RowGroup.rows).sum = rows.length := parts.sum_rows
  have shortHeader : parts.headerBytes.length < 2 ^ 32 := by
    rw [parts.header, ← parts.described]
    exact header
  have shortFooter : parts.footerBytes.length < 2 ^ 32 := by
    rw [parts.footer]
    exact footer
  have agree : (writer.buildHeader rows (writer.splitRows crates rows).length).rowCount =
      listedRows segment.footer.rowGroups := by
    rw [listedRows_eq (by omega), counted]
    rfl
  have opened := openSegment_laidOut described listed agree parts.header parts.footer parts.laid
    (by rw [address, hash]) shortHeader shortFooter small verify
  rw [opened, ← parts.described, ← parts.counted]

end Parts

/-! Indexes. -/

theorem mem_buildIndexes {checksum : Bytes → UInt64} {groups : List (List EventRow)}
    {columns : List (String × Column)} {indexes : List (String × ColumnIndex)}
    (built : buildIndexes checksum groups columns = .ok indexes) {e : String × ColumnIndex} (inside : e ∈ indexes) :
    ∃ column layout, (e.1, column) ∈ columns ∧ buildIndex checksum column layout groups = .ok e.2 := by
  induction columns generalizing indexes with
  | nil =>
    cases built
    cases inside
  | cons entry columns ih =>
    have further : (∃ column layout, (e.1, column) ∈ columns ∧ buildIndex checksum column layout groups = .ok e.2) →
        ∃ column layout, (e.1, column) ∈ entry :: columns ∧ buildIndex checksum column layout groups = .ok e.2 :=
      fun ⟨column, layout, there, made⟩ => ⟨column, layout, mem_cons_of_mem _ there, made⟩
    unfold buildIndexes at built
    split at built
    · exact further (ih built inside)
    · rename_i layout _
      obtain ⟨index, made, built⟩ := bind_eq_ok.mp built
      obtain ⟨others, rest, built⟩ := bind_eq_ok.mp built
      cases built
      rcases mem_cons.mp inside with rfl | later
      · exact ⟨entry.2, layout, mem_cons_self, made⟩
      · exact further (ih rest later)

theorem index_answers {column : Column} {layout : IndexLayout} {index : ColumnIndex}
    (whole : column.length = rows.length) (few : rows.length ≤ 2 ^ 32)
    (built : buildIndex crates.checksum column layout (writer.splitRows crates rows) = .ok index) :
    index.layout = layout ∧ index.Fits ∧ Answers crates column index := by
  obtain ⟨same, made, own, fits, answers⟩ := buildIndex_answers crates column layout (writer.splitRows crates rows)
    (by rw [sum_splitRows, whole]) (by omega)
  rw [built] at made
  cases made
  exact ⟨own, fits, answers⟩

/-- Where the directory of a written file lists an index, the block there is one that was built over the
column of that name. -/
theorem Parts.index_listed (parts : Parts crates writer rows segment) {name : String} {place : Nat × IndexLayout}
    (listed : segment.footer.indexes.get? name = some place)
    (hash : ∀ bytes, (crates.contentAddress bytes).length = 32) :
    ∃ column layout index before block after, (toColumns crates.floatText rows).get? name = some column ∧
      buildIndex crates.checksum column layout (writer.splitRows crates rows) = .ok index ∧
      (name, index) ∈ parts.indexes ∧ segment.bytes = before ++ (block ++ after) ∧ place.1 = before.length ∧
      writeIndexMaybeEncrypted crates writer.cipher writer.segmentId before.length index = .ok block := by
  obtain ⟨payload, address⟩ := parts.addressed
  have inside := get?_eq_some.mp listed
  rw [parts.listed] at inside
  obtain ⟨there, held, same⟩ : ∃ there ∈ parts.places, (name, place) = (there.1, there.2) := by
    rcases mem_foldl_insert inside with old | found
    · cases old
    · exact found
  obtain ⟨entry, among, before, block, after, split, put⟩ := mem_layOut parts.indexed held
  obtain ⟨stored, rfl⟩ := putIndex_ok put
  obtain ⟨rfl, rfl⟩ := Prod.mk.inj same
  obtain ⟨column, layout, projected, built⟩ := mem_buildIndexes parts.built among
  let ahead := prologue parts.headerBytes.length
    (prologueBytes + (parts.headerBytes ++ (parts.pageBytes ++ parts.indexBytes)).length) segment.contentAddress ++
      (parts.headerBytes ++ (parts.pageBytes ++ before))
  have size : ahead.length = prologueBytes + parts.headerBytes.length + parts.pageBytes.length + before.length := by
    rw [length_append, length_prologue _ _ (by rw [address, hash]), length_append, length_append,
      prologueBytes]
    omega
  refine ⟨column, layout, entry.2, ahead, block, after ++ (parts.footerBytes ++ trailer crates
    (prologueBytes + (parts.headerBytes ++ (parts.pageBytes ++ parts.indexBytes)).length) parts.footerBytes),
    get?_eq_some.mpr projected, built, among, ?_, size.symm, size ▸ stored⟩
  have laid := parts.laid
  conv at laid => rhs; rw [split]
  rw [laid]
  simp only [ahead, append_assoc, split]

/-- An index has no false negatives. A written file opens to its directory, and every index listed there
reads back: whatever key a row of its column has, the segment may hold it, postings list the rows that
hold it in order, and a lookup has the row among its candidates. The writer asks for no lookup itself,
so one is also followed from its building through its block. -/
theorem index_has_no_false_negatives (fits : writer.Fits) (lawful : ∀ c, writer.cipher = some c → c.Lawful)
    (hash : ∀ bytes, (crates.contentAddress bytes).length = 32)
    (typed : ∀ row ∈ rows, RowFits crates.floatText row) (written : writer.write crates rows = .ok segment)
    (lengths : LengthsFit crates writer rows segment) (small : segment.bytes.length < 2 ^ 63) (first verify : Bool) :
    (∃ back, openSegment crates segment.bytes first = .ok back ∧ back.footer = segment.footer ∧
      ∀ name place, back.footer.indexes.get? name = some place →
        ∃ column index, (toColumns crates.floatText rows).get? name = some column ∧
          back.indexUnder crates writer.cipher verify name = .ok (some index) ∧
          ∀ row key, indexKey column row = some key →
            back.mayHoldUnder crates writer.cipher verify name key = .ok true ∧
            (∀ postings, index = .termPostings postings → postings.rows key =
              some ((List.range rows.length).filter fun r => indexKey column r = some key)) ∧
            ∀ entries, index = .uniqueLookup entries →
              ∃ found, entries.candidates (crates.checksum key).toNat = .ok found ∧ row ∈ found) ∧
    ∀ name column, (toColumns crates.floatText rows).get? name = some column →
      ∃ index, buildIndex crates.checksum column .uniqueLookup (writer.splitRows crates rows) = .ok index ∧
        (index.body.length + overheadBytes < 2 ^ 32 → ∀ before block after, before.length < 2 ^ 63 →
          writeIndexMaybeEncrypted crates writer.cipher writer.segmentId before.length index = .ok block →
          ∃ entries, readIndexMaybeEncrypted crates writer.cipher writer.segmentId before.length
              (before ++ (block ++ after)) verify = .ok (.uniqueLookup entries) ∧
            ∀ row key, indexKey column row = some key →
              ∃ found, entries.candidates (crates.checksum key).toNat = .ok found ∧ row ∈ found) := by
  obtain ⟨parts⟩ := write_parts written
  have few := lengths.numbers
  have length {name : String} {column : Column} (held : (toColumns crates.floatText rows).get? name = some column) :
      column.length = rows.length := length_of_toColumns (OrderedMap.get?_eq_some.mp held)
  have opened := parts.opens fits typed (by omega) lengths.header lengths.footer small hash first
  refine ⟨⟨_, opened, rfl, fun name place listed => ?_⟩, ?_⟩
  · obtain ⟨column, layout, index, before, block, after, held, built, among, split, start, stored⟩ :=
      parts.index_listed listed hash
    obtain ⟨-, sound, answers⟩ := index_answers (length held) few built
    have low : before.length < 2 ^ 63 := by
      rw [split, List.length_append] at small
      omega
    have same : segment.header.segmentId = writer.segmentId := congrArg Header.segmentId parts.described
    have read := readIndex_append lawful sound (lengths.indexes _ parts.built _ among) stored after low verify
    rw [← split, ← start] at read
    have indexed : ({ segment with header := { segment.header with uncompressedBytes := 0 } } : Segment).indexUnder
        crates writer.cipher verify name = .ok (some index) := by
      simp only [Segment.indexUnder, listed, same, read, ok_bind]
    refine ⟨column, index, held, indexed, fun row key keyed => ⟨?_, ?_, ?_⟩⟩
    · rw [Segment.mayHoldUnder, indexed]
      exact answers.held row key keyed
    · intro postings is
      rw [answers.posted postings is row key keyed, holders, length held]
    · intro entries is
      obtain ⟨found, answered, each⟩ := answers.candidates entries is key
      exact ⟨found, answered, each row keyed⟩
  · intro name column held
    obtain ⟨index, built, -⟩ := buildIndex_answers crates column .uniqueLookup (writer.splitRows crates rows)
      (by rw [sum_splitRows, length held]) (by rw [length held]; exact few)
    refine ⟨index, built, fun short before block after low stored => ?_⟩
    obtain ⟨layout, sound, answers⟩ := index_answers (length held) few built
    cases index with
    | blockFilter filters => cases layout
    | termPostings postings => cases layout
    | uniqueLookup entries =>
      refine ⟨entries, readIndex_append lawful sound short stored after low verify, fun row key keyed => ?_⟩
      obtain ⟨found, answered, each⟩ := answers.candidates entries rfl key
      exact ⟨found, answered, each row keyed⟩

end SegmentWriter
/-! A protected file of three rows. -/

def contextTag (context : Bytes) : Bytes := (context ++ List.replicate overheadBytes 0).take overheadBytes

def taggingCipher : Cipher where
  generation := 1
  sealBlock plain context := .ok (plain ++ contextTag context)
  openBlock body context :=
    if body.drop (body.length - overheadBytes) = contextTag context then
      .ok (body.take (body.length - overheadBytes))
    else .error "This stored data could not be read with this project's key."

theorem length_contextTag (context : Bytes) : (contextTag context).length = overheadBytes := by
  simp [contextTag]

theorem lawful_taggingCipher : taggingCipher.Lawful := by
  refine ⟨fun plain context body made => ?_, fun plain context body made => ?_⟩
  · cases made
    have size : (plain ++ contextTag context).length - overheadBytes = plain.length := by
      rw [length_append, length_contextTag, Nat.add_sub_cancel]
    rw [taggingCipher]
    dsimp only
    rw [size, if_pos drop_left, take_left]
  · cases made
    rw [length_append, length_contextTag]

def smallCrates : Crates :=
  { zeroCrates with
    checksum := fun bytes => .ofNat (37 * bytes.length)
    contentAddress := fun bytes => (bytes ++ List.replicate 32 0).take 32
    rowsUnder := fun _ _ _ => 2 }

def smallWriter : SegmentWriter := { SegmentWriter.new 1 2 3 with cipher := some taggingCipher }

def smallRows : List EventRow :=
  [{ EventRow.new 5 "view" "page" 10 with sessionId := some "s" }, EventRow.new 6 "view" "page" 11,
    { EventRow.new 7 "click" "page" 12 with sessionId := some "s", properties := [("plan", .text "free", "client")] }]

def returns {ε α : Type} (made : Checked ε α) (check : α → Bool) : Bool :=
  match made with
  | .ok a => check a
  | .error _ => false

theorem returns_ok {ε α : Type} {made : Checked ε α} {check : α → Bool} (returned : returns made check = true) :
    ∃ a, made = .ok a ∧ check a = true := by
  cases made with
  | ok a => exact ⟨a, rfl, returned⟩
  | error e => cases returned

namespace SegmentWriter

theorem fits_smallWriter : smallWriter.Fits := by
  refine ⟨by decide, by decide, by decide, by decide, fun c is => ?_⟩
  cases is
  decide

theorem hash_smallCrates (bytes : Bytes) : (smallCrates.contentAddress bytes).length = 32 := by
  show ((bytes ++ List.replicate 32 0).take 32).length = 32
  simp

theorem written_small : ∃ segment place, smallWriter.write smallCrates smallRows = .ok segment ∧
    LengthsFit smallCrates smallWriter smallRows segment ∧ segment.bytes.length < 2 ^ 63 ∧
      segment.footer.indexes.get? "session_id" = some place := by
  have checked : returns (smallWriter.write smallCrates smallRows) (fun segment =>
      (encode (headerToCbor segment.header)).length < 2 ^ 32 ∧ (encode (footerToCbor segment.footer)).length < 2 ^ 32 ∧
        segment.bytes.length < 2 ^ 63 ∧ (segment.footer.indexes.get? "session_id").isSome) = true := by
    decide +kernel
  have bodies : returns (buildIndexes smallCrates.checksum (smallWriter.splitRows smallCrates smallRows)
      (toColumns smallCrates.floatText smallRows).entries) (fun indexes =>
        indexes.all fun e => e.2.body.length + overheadBytes < 2 ^ 32) = true := by
    decide +kernel
  obtain ⟨segment, written, facts⟩ := returns_ok checked
  obtain ⟨header, footer, small, listed⟩ := of_decide_eq_true facts
  obtain ⟨place, found⟩ := Option.isSome_iff_exists.mp listed
  refine ⟨segment, place, written, ⟨by decide, header, footer, fun indexes built e inside => ?_⟩, small, found⟩
  rw [built] at bodies
  exact of_decide_eq_true (all_eq_true.mp bodies e inside)

theorem sessions_smallRows : (toColumns smallCrates.floatText smallRows).get? "session_id" =
    some (.text [some "s", none, some "s"]) := by
  decide +kernel

/-- The session of the first and the third row may be held. -/
theorem index_has_no_false_negatives_session : ∃ segment back, smallWriter.write smallCrates smallRows = .ok segment ∧
      openSegment smallCrates segment.bytes true = .ok back ∧
      back.mayHoldUnder smallCrates smallWriter.cipher true "session_id" (textBytes "s") = .ok true := by
  obtain ⟨segment, place, written, lengths, small, found⟩ := written_small
  have lawful : ∀ c, smallWriter.cipher = some c → c.Lawful := by
    intro c is
    cases is
    exact lawful_taggingCipher
  have typed : ∀ row ∈ smallRows, RowFits smallCrates.floatText row := by decide +kernel
  obtain ⟨⟨back, opened, same, each⟩, -⟩ := index_has_no_false_negatives fits_smallWriter lawful hash_smallCrates
    typed written lengths small true true
  rw [← same] at found
  obtain ⟨column, index, held, -, answers⟩ := each "session_id" place found
  rw [sessions_smallRows] at held
  cases held
  have key : indexKey (.text [some "s", none, some "s"]) 0 = some (textBytes "s") := by
    simp [indexKey]
  exact ⟨segment, back, written, opened, (answers 0 (textBytes "s") key).1⟩

end SegmentWriter
end TallyOwl.SegmentFormat
