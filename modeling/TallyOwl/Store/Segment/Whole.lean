import Mathlib.Algebra.Order.BigOperators.Group.List
import TallyOwl.Store.CborSize
import TallyOwl.Store.Segment.Stretches
import TallyOwl.Store.Segment.Written

/-! A whole segment comes back: every row of every group, in order, under a description of them. -/
open List TallyOwl.Lib.OrderedMap

namespace TallyOwl.SegmentFormat
open Lib Lib.Checked Format Locate Cbor RowCodec

/-! Columns as they are read. -/

theorem readValue_asRead (typeName : String) (column : Column) (index : Nat) :
    readValue typeName column.asRead index = readValue typeName column index := by
  cases column with
  | integers values =>
    by_cases null : typeName = "null"
    · rw [null]
      rfl
    by_cases integer : typeName = "integer"
    · rw [integer]
      rfl
    have none (column : Column) (other : column = .timestamps values ∨ column = .integers values) :
        readValue typeName column index = .ok .none := by
      unfold readValue
      split <;> simp_all
    rw [Column.asRead, none _ (.inl rfl), none _ (.inr rfl)]
  | _ => rfl

def columnsRead (columns : Columns) : Columns := columns.mapValues fun _ column => column.asRead

section
variable {columns : Columns}

theorem get?_columnsRead (name : String) : (columnsRead columns).get? name = (columns.get? name).map Column.asRead :=
  get?_mapValues _ _ _

theorem identifiers_columnsRead (name : String) (index : Nat) :
    identifiers (columnsRead columns) name index = identifiers columns name index := by
  rw [identifiers, identifiers, get?_columnsRead]
  cases columns.get? name with
  | none => rfl
  | some column => cases column <;> rfl

theorem word_columnsRead (name : String) (index : Nat) :
    word (columnsRead columns) name index = word columns name index := by
  rw [word, word, get?_columnsRead]
  cases columns.get? name with
  | none => rfl
  | some column => cases column <;> rfl

theorem moment_columnsRead {name : String} {values : List Int} (held : columns.get? name = some (.timestamps values))
    (index : Nat) : moment (columnsRead columns) name index = moment columns name index := by
  rw [moment, moment, get?_columnsRead, held]
  rfl

structure Timed (columns : Columns) : Prop where
  occurred : ∃ values, columns.get? "occurred_at" = some (.timestamps values)
  received : ∃ values, columns.get? "received_at" = some (.timestamps values)
  committed : ∃ values, columns.get? "committed_at" = some (.timestamps values)

theorem bareRow_columnsRead (timed : Timed columns) (workspaceId projectId : Id) (index : Nat) :
    bareRow (columnsRead columns) workspaceId projectId index = bareRow columns workspaceId projectId index := by
  obtain ⟨⟨_, occurred⟩, ⟨_, received⟩, ⟨_, committed⟩⟩ := timed
  simp only [bareRow, identifiers_columnsRead, word_columnsRead, moment_columnsRead occurred,
    moment_columnsRead received, moment_columnsRead committed]

theorem propertyAt_columnsRead (key : String) (typeName : Option String) (index : Nat) :
    propertyAt (columnsRead columns) key typeName index = propertyAt columns key typeName index := by
  unfold propertyAt
  cases typeName with
  | none => rfl
  | some typeName =>
    simp only [get?_columnsRead, word_columnsRead]
    cases columns.get? (columnName key (valueSuffix typeName)) with
    | none => rfl
    | some column => simp only [Option.map_some, readValue_asRead]

theorem putKey_columnsRead (key : String) (typeNames : List (Option String)) (index : Nat) (out : List EventRow) :
    putKey (columnsRead columns) key typeNames index out = putKey columns key typeNames index out := by
  induction typeNames generalizing index out with
  | nil => rfl
  | cons typeName typeNames ih => simp only [putKey, propertyAt_columnsRead, ih]

theorem putKeys_columnsRead (entries : List (String × Column)) (out : List EventRow) :
    putKeys (columnsRead columns) (entries.map fun e => (e.1, e.2.asRead)) out = putKeys columns entries out := by
  induction entries generalizing out with
  | nil => rfl
  | cons e entries ih =>
    obtain ⟨name, column⟩ := e
    rw [map_cons]
    cases named : typeKey name with
    | none =>
      simp only [putKeys, named]
      exact ih out
    | some key =>
      simp only [putKeys, named]
      cases column with
      | text typeNames =>
        show (putKey (columnsRead columns) key typeNames 0 out >>= _) = _
        rw [putKey_columnsRead]
        exact bind_congr ih
      | _ => exact ih out

theorem toRows_columnsRead (timed : Timed columns) (rows : Nat) (workspaceId projectId : Id) (backing : Nat) :
    toRows (columnsRead columns) rows workspaceId projectId backing =
      toRows columns rows workspaceId projectId backing := by
  have bare : bareRow (columnsRead columns) workspaceId projectId = bareRow columns workspaceId projectId :=
    funext fun index => bareRow_columnsRead timed workspaceId projectId index
  rw [toRows, toRows, bare]
  simp only [show (columnsRead columns).entries = columns.entries.map fun e => (e.1, e.2.asRead) from rfl,
    putKeys_columnsRead]

end

section
variable {floatText : UInt64 → String} {rows : List EventRow}

theorem timed_toColumns : Timed (toColumns floatText rows) := by
  refine ⟨⟨rows.map EventRow.occurredAt, get?_envelope ?_⟩, ⟨rows.map EventRow.receivedAt, get?_envelope ?_⟩,
    ⟨rows.map EventRow.committedAt, get?_envelope ?_⟩⟩ <;> simp [envelope]

theorem isRaw_valueColumn (suffix : String) (values : List (Option PropertyValue)) :
    (valueColumn floatText suffix values).isRaw = false := by
  unfold valueColumn
  split <;> rfl

theorem typed_valueColumn (suffix : String) {values : List (Option PropertyValue)}
    (fits : ∀ v, some v ∈ values → ValueFits v) : (valueColumn floatText suffix values).Typed := by
  unfold valueColumn
  split
  · trivial
  · intro n inside
    obtain ⟨v, there, rfl⟩ := mem_map.mp inside
    split
    · rename_i n
      exact fits _ there
    · unfold InI64
      omega
  · intro n inside
    obtain ⟨v, there, rfl⟩ := mem_map.mp inside
    split
    · rename_i n
      exact fits _ there
    · omega
  · trivial
  · trivial

theorem typed_toColumns (typed : ∀ row ∈ rows, RowFits floatText row) {e : String × Column}
    (inside : e ∈ (toColumns floatText rows).entries) : e.2.Typed ∧ e.2.isRaw = false := by
  have times {pick : EventRow → Int} (each : ∀ row ∈ rows, InI64 (pick row)) :
      Column.Typed (.timestamps (rows.map pick)) := by
    intro v there
    obtain ⟨row, own, rfl⟩ := mem_map.mp there
    exact each row own
  rcases mem_projected (mem_toColumns.mp inside) with plain | ⟨key, suffix, -, rfl⟩
  · simp only [envelope, mem_cons, not_mem_nil, or_false] at plain
    rcases plain with rfl | rfl | rfl | rfl | rfl | rfl | rfl | rfl | rfl | rfl | rfl | rfl | rfl
    · exact ⟨trivial, rfl⟩
    · exact ⟨trivial, rfl⟩
    · exact ⟨trivial, rfl⟩
    · exact ⟨trivial, rfl⟩
    · exact ⟨trivial, rfl⟩
    · exact ⟨times fun row own => (typed row own).occurredAt, rfl⟩
    · exact ⟨times fun row own => (typed row own).receivedAt, rfl⟩
    · exact ⟨times fun row own => (typed row own).committedAt, rfl⟩
    · exact ⟨trivial, rfl⟩
    · exact ⟨trivial, rfl⟩
    · exact ⟨trivial, rfl⟩
    · exact ⟨trivial, rfl⟩
    · exact ⟨trivial, rfl⟩
  · dsimp only
    unfold partColumn
    split
    · exact ⟨trivial, rfl⟩
    · split
      · exact ⟨trivial, rfl⟩
      · refine ⟨typed_valueColumn suffix fun v there => ?_, isRaw_valueColumn _ _⟩
        obtain ⟨row, own, under⟩ := mem_map.mp there
        obtain ⟨p, held, same⟩ := Option.bind_eq_some_iff.mp under
        split at same
        · cases same
          have listed := propertyOf_eq_some held
          exact ((typed row own).property _ listed).2.2.1
        · cases same

end

/-! Pages of a column, columns of a group, groups of a file. -/

theorem append_asRead {a b c : Column} (appended : append a b = .ok c) : append a.asRead b.asRead = .ok c.asRead := by
  cases a <;> cases b <;> cases appended <;> rfl

theorem joined_asRead {held : Option Column} {piece column : Column} (together : joined held piece = .ok column) :
    joined (held.map Column.asRead) piece.asRead = .ok column.asRead := by
  cases held with
  | none =>
    cases together
    rfl
  | some held => exact append_asRead together

theorem length_append_column {a b c : Column} (appended : append a b = .ok c) : c.length = a.length + b.length := by
  cases a <;> cases b <;> cases appended <;> simp [Column.length]

theorem length_joinAll {held : Option Column} {pieces : List Column} {column : Column}
    (together : joinAll held pieces = .ok (some column)) :
    column.length = (held.elim 0 Column.length) + (pieces.map Column.length).sum := by
  induction pieces generalizing held with
  | nil =>
    cases together
    rfl
  | cons piece pieces ih =>
    cases first : joined held piece with
    | error e => simp [joinAll, first, bind, Except.bind] at together
    | ok more =>
      simp only [joinAll, first, bind, Except.bind] at together
      have rest := ih together
      have here : more.length = held.elim 0 Column.length + piece.length := by
        cases held with
        | none =>
          cases first
          simp
        | some held => exact length_append_column first
      rw [map_cons, sum_cons, rest]
      simp only [Option.elim_some]
      omega

/-! What lengths say. -/

section
variable {bytes : Bytes} {crates : Crates}

theorem openSegment_header {verify : Bool} {back : Segment} (opened : openSegment crates bytes verify = .ok back) :
    openHeader bytes = .ok back.header := by
  unfold openSegment at opened
  split at opened
  · cases opened
  · obtain ⟨_, _, opened⟩ := bind_eq_ok.mp opened
    split at opened
    · cases opened
    · obtain ⟨_, _, opened⟩ := bind_eq_ok.mp opened
      obtain ⟨_, _, opened⟩ := bind_eq_ok.mp opened
      split at opened
      · cases opened
      · obtain ⟨_, _, opened⟩ := bind_eq_ok.mp opened
        obtain ⟨header, described, opened⟩ := bind_eq_ok.mp opened
        split at opened
        · cases opened
        · obtain ⟨_, _, opened⟩ := bind_eq_ok.mp opened
          cases opened
          exact described

theorem kinds_headerFromCbor {value : Value} {header : Header} (read : headerFromCbor value = .ok header) :
    (header.kinds.map fun kind => (textBytes kind).length).sum ≤ value.extent := by
  have kinds : header.kinds = (((value.field "kinds").bind Value.asArray).getD []).filterMap Value.asText := by
    unfold headerFromCbor at read
    split at read
    · cases read
    · simp only [bind, Except.bind] at read
      repeat (split at read; · cases read)
      cases read
      rfl
  rw [kinds]
  refine (sum_asText_le _).trans ?_
  cases held : value.field "kinds" with
  | none => exact Nat.zero_le _
  | some found =>
    cases found with
    | array items => exact (Nat.le_succ _).trans (extent_field held)
    | _ => exact Nat.zero_le _

theorem kinds_short {verify : Bool} {back : Segment} (opened : openSegment crates bytes verify = .ok back) :
    (back.header.kinds.map fun kind => (textBytes kind).length).sum < 2 ^ 32 := by
  have read := openSegment_header opened
  unfold openHeader at read
  obtain ⟨major, _, read⟩ := bind_eq_ok.mp read
  split at read
  · cases read
  · obtain ⟨length, counted, read⟩ := bind_eq_ok.mp read
    obtain ⟨_, _, read⟩ := bind_eq_ok.mp read
    obtain ⟨headerBytes, cut, read⟩ := bind_eq_ok.mp read
    obtain ⟨value, decoded, read⟩ := bind_eq_ok.mp read
    obtain ⟨header, described, read⟩ := bind_eq_ok.mp read
    obtain same := Except.ok.inj read
    have short := (getU32_ok (lift_eq_ok.mp counted)).1
    have width := length_of_window (slice_ok.mp (lift_eq_ok.mp cut))
    have accepted : decode headerBytes = .ok value := by
      unfold decodePart at decoded
      rw [decodeChecked_eq (by omega)] at decoded
      cases made : decode headerBytes with
      | error e =>
        rw [made] at decoded
        cases decoded
      | ok found =>
        rw [made] at decoded
        exact congrArg Except.ok (Except.ok.inj decoded)
    have among := (kinds_headerFromCbor (lift_eq_ok.mp described)).trans (extent_le_of_decode accepted)
    rw [← same]
    dsimp only
    omega

theorem length_putVarintFrom (groups value : Nat) : (putVarintFrom groups value).length ≤ groups := by
  induction groups generalizing value with
  | zero => exact le_refl _
  | succ groups ih =>
    unfold putVarintFrom
    split
    · simp
    · rw [length_cons]
      exact Nat.succ_le_succ (ih _)

theorem length_flatMap_le_mul {α : Type} {f : α → Bytes} {most : Nat} {xs : List α}
    (each : ∀ x ∈ xs, (f x).length ≤ most) : (xs.flatMap f).length ≤ xs.length * most := by
  have total := sum_le_card_nsmul (xs.map fun x => (f x).length) most (forall_mem_map.mpr each)
  rw [length_map, nsmul_eq_mul, Nat.cast_id] at total
  rw [length_flatMap]
  exact total

theorem length_putDeltas_le (previous : Int) (values : List Int) :
    (putDeltas previous values).length ≤ values.length * 10 := by
  induction values generalizing previous with
  | nil => simp [putDeltas]
  | cons value values ih =>
    have own := length_putVarintFrom 10 (zigzag (wrapI64 (value - previous)))
    have more := ih value
    rw [putDeltas, putVarint, length_append, length_cons]
    omega

theorem length_putRegion_le_mul {most : Nat} {values : List Bytes} (each : ∀ v ∈ values, v.length ≤ most) :
    (putRegion values).length ≤ values.length * (10 + most) := by
  have lengths := @length_flatMap_le_mul _ (fun v : Bytes => putVarint v.length) 10 values
    fun v _ => length_putVarintFrom 10 v.length
  have bodies := @length_flatMap_le_mul _ id most values each
  rw [flatMap_id] at bodies
  rw [putRegion, length_append, Nat.mul_add]
  omega

theorem length_encodeValues_envelope {most : Nat} {rows : List EventRow}
    (each : ∀ row ∈ rows, (textBytes row.kind).length ≤ most ∧ (textBytes row.name).length ≤ most ∧
      ∀ text ∈ [row.sessionId, row.requestId, row.serviceName, row.release],
        (textBytes (text.getD "")).length ≤ most) {e : String × Column} (inside : e ∈ envelope rows) :
    (encodeValues e.2).length ≤ rows.length * (18 + most) := by
  have times (pick : EventRow → Int) : (encodeValues (.timestamps (rows.map pick))).length ≤ rows.length * (18 + most) := by
    have size := length_putDeltas_le 0 (rows.map pick)
    rw [length_map] at size
    exact size.trans (Nat.mul_le_mul_left _ (by omega))
  have ids (pick : EventRow → Id) : (encodeValues (.identifiers (rows.map pick))).length ≤ rows.length * (18 + most) := by
    have heads := length_putDeltas_le 0 ((rows.map pick).map headOf)
    have tails := @length_flatMap_le_mul _ (fun id : Id => id.bytes.drop 8) 8 (rows.map pick) fun id _ => by simp
    rw [length_map, length_map] at heads
    rw [length_map] at tails
    have both : rows.length * 10 + rows.length * 8 ≤ rows.length * (18 + most) := by
      rw [← Nat.mul_add]
      exact Nat.mul_le_mul_left _ (by omega)
    rw [encodeValues, length_append]
    omega
  have words (pick : EventRow → Option String) (short : ∀ row ∈ rows, (textBytes ((pick row).getD "")).length ≤ most) :
      (encodeValues (.text (rows.map pick))).length ≤ rows.length * (18 + most) := by
    have size := @length_putRegion_le_mul most ((rows.map pick).map fun value => textBytes (value.getD "")) (by
      intro v there
      rw [map_map] at there
      obtain ⟨row, own, rfl⟩ := mem_map.mp there
      exact short row own)
    rw [length_map, length_map] at size
    exact size.trans (Nat.mul_le_mul_left _ (by omega))
  simp only [envelope, mem_cons, not_mem_nil, or_false] at inside
  rcases inside with rfl | rfl | rfl | rfl | rfl | rfl | rfl | rfl | rfl | rfl | rfl | rfl | rfl
  · exact ids _
  · exact ids _
  · exact ids _
  · exact words _ fun row own => (each row own).1
  · exact words _ fun row own => (each row own).2.1
  · exact times _
  · exact times _
  · exact times _
  · exact words _ fun row own => (each row own).2.2 _ (by simp)
  · exact words _ fun row own => (each row own).2.2 _ (by simp)
  · exact words _ fun row own => (each row own).2.2 _ (by simp)
  · exact words _ fun row own => (each row own).2.2 _ (by simp)
  · exact ids _

end

namespace SegmentWriter
variable {crates : Crates} {writer : SegmentWriter} {rows : List EventRow} {segment : Segment}

theorem putPage_plain (plain : writer.cipher = none) {start : Nat} {piece : Column} {block : Bytes} {ref : PageRef}
    (put : writer.putPage crates start piece = .ok (block, ref)) :
    block = writePage crates piece ∧ ref = ⟨start, piece.length⟩ := by
  obtain ⟨stored, rfl⟩ := putPage_ok put
  rw [plain, writePageMaybeEncrypted_none] at stored
  exact ⟨(Except.ok.inj stored).symm, rfl⟩

theorem mergePages_layOut (plain : writer.cipher = none) {pieces : List Column} {start : Nat} {written : Bytes} {refs : List PageRef}
    (laid : layOut (writer.putPage crates) start pieces = .ok (written, refs)) {ahead behind : Bytes}
    (stands : segment.bytes = ahead ++ (written ++ behind)) (begins : ahead.length = start)
    (small : segment.bytes.length < 2 ^ 63) {verify : Bool}
    (reads : ∀ piece ∈ pieces, ∀ before after : Bytes, before.length < 2 ^ 63 →
      readPage crates (before ++ (writePage crates piece ++ after)) before.length verify = .ok piece.asRead)
    {held : Option Column} {column : Column} (together : joinAll held pieces = .ok (some column)) :
    mergePages crates segment verify (held.map Column.asRead) refs = .ok (some column.asRead) := by
  induction pieces generalizing start written refs ahead held with
  | nil =>
    cases laid
    cases together
    rfl
  | cons piece pieces ih =>
    obtain ⟨block, ref, blocks, later, first, rest, rfl, rfl⟩ := layOut_cons_ok laid
    obtain ⟨rfl, rfl⟩ := putPage_plain plain first
    obtain ⟨own, others⟩ := forall_mem_cons.mp reads
    have low : ahead.length < 2 ^ 63 := by
      rw [stands, length_append] at small
      omega
    have page := own ahead (blocks ++ behind) low
    rw [← append_assoc (writePage crates piece), ← stands, begins] at page
    cases joins : joined held piece with
    | error e => simp [joinAll, joins, bind, Except.bind] at together
    | ok more =>
      simp only [joinAll, joins, bind, Except.bind] at together
      have next := ih rest (by rw [stands]; simp : segment.bytes = (ahead ++ writePage crates piece) ++
        (blocks ++ behind)) (by rw [length_append, begins]) others together
      rw [mergePages, page, ok_bind, joined_asRead joins, lift_ok, ok_bind]
      exact next

theorem keys_of_forall₂ {κ α β : Type} {R : κ × α → κ × β → Prop} {xs : List (κ × α)} {ys : List (κ × β)}
    (each : List.Forall₂ (fun x y => y.1 = x.1 ∧ R x y) xs ys) : ys.map Prod.fst = xs.map Prod.fst := by
  induction each with
  | nil => rfl
  | cons own _ ih => rw [map_cons, map_cons, own.1, ih]

theorem readColumns_of {verify : Bool} {entries : List (String × Column)} {pages : List (String × List PageRef)}
    (each : List.Forall₂ (fun e p => p.1 = e.1 ∧
      mergePages crates segment verify none p.2 = .ok (some e.2.asRead)) entries pages) (columns : Columns) :
    readColumns crates segment verify pages columns =
      .ok ((entries.map fun e => (e.1, e.2.asRead)).foldl (fun m e => m.insert e.1 e.2) columns) := by
  induction each generalizing columns with
  | nil => rfl
  | @cons e p entries pages own rest ih =>
    obtain ⟨name, merged⟩ := own
    obtain ⟨key, refs⟩ := p
    obtain rfl := name
    rw [readColumns, merged, ok_bind]
    exact ih _

theorem length_le_writePage (column : Column) : column.length ≤ 8 * (writePage crates column).length := by
  simp only [writePage, length_append, length_packBits, Column.length_nulls]
  omega

structure Narrow (crates : Crates) (group : List EventRow) : Prop where
  filled : group ≠ []
  typed : ∀ row ∈ group, RowFits crates.floatText row
  small : ∀ e ∈ (toColumns crates.floatText group).entries, (encodeValues e.2).length ≤ maxUncompressedPageBytes

section
variable {start : Nat} {entry : Nat × List EventRow} {block : Bytes} {group : RowGroup}

theorem readsBack_of_narrow (restores : crates.Restores) {group : List EventRow} (narrow : Narrow crates group)
    {e : String × Column} (inside : e ∈ (toColumns crates.floatText group).entries) (target : Nat) :
    0 < e.2.length ∧ PagesReadBack crates e.2 target := by
  obtain ⟨typed, shape⟩ := typed_toColumns narrow.typed inside
  have filled : 0 < e.2.length := by
    rw [length_of_toColumns inside]
    exact length_pos_iff_ne_nil.mpr narrow.filled
  exact ⟨filled, readsBack_of_small restores typed shape filled (narrow.small e inside) target⟩

theorem pages_of_putGroup (put : writer.putGroup crates start entry = .ok (block, group)) :
    group.rows = entry.2.length ∧ List.Forall₂ (fun e p => p.1 = e.1 ∧ LaidAt (writer.putColumn crates) start block e p)
      (toColumns crates.floatText entry.2).entries group.pages.entries := by
  obtain ⟨pages, laid, rfl⟩ := putGroup_ok put
  have named : List.Forall₂ (fun e p => p.1 = e.1 ∧ LaidAt (writer.putColumn crates) start block e p)
      (toColumns crates.floatText entry.2).entries pages := (layOut_ok laid).imp fun e p stands => by
    have own := stands
    obtain ⟨before, bytes, after, -, made⟩ := own
    exact ⟨(putColumn_ok made).1, stands⟩
  have keys : pages.map Prod.fst = (toColumns crates.floatText entry.2).entries.map Prod.fst := keys_of_forall₂ named
  have ascending : pages.Pairwise fun a b => a.1 < b.1 := by
    have names := pairwise_map.mpr (toColumns crates.floatText entry.2).ascending
    rw [← keys] at names
    exact pairwise_map.mp names
  have listed : OrderedMap.ofList pages = ⟨pages, ascending⟩ := ofList_of_perm (List.Perm.refl _)
  refine ⟨rfl, ?_⟩
  dsimp only
  rw [listed]
  exact named

theorem backed_of_putGroup (plain : writer.cipher = none) (filled : entry.2 ≠ [])
    (put : writer.putGroup crates start entry = .ok (block, group)) : entry.2.length ≤ 8 * block.length := by
  obtain ⟨-, listed⟩ := pages_of_putGroup put
  obtain ⟨values, held⟩ := (@timed_toColumns crates.floatText entry.2).occurred
  have inside := get?_eq_some.mp held
  have length := length_of_toColumns inside
  obtain ⟨i, low, is⟩ := mem_iff_getElem.mp inside
  have stands := (listed.get low (listed.length_eq ▸ low)).2
  obtain ⟨first, own, made, behind, within⟩ := stands.within
  obtain ⟨-, pieces⟩ := putColumn_ok made
  have place : (toColumns crates.floatText entry.2).entries.get ⟨i, low⟩ = ("occurred_at", .timestamps values) := is
  rw [place] at pieces
  have more : 0 < Column.length (.timestamps values) := by
    rw [length]
    exact length_pos_iff_ne_nil.mpr filled
  have whole := length_joinAll (@joinAll_splitIntoPages crates _ writer.pageTargetBytes more)
  have weighs : ((splitIntoPages crates (.timestamps values) writer.pageTargetBytes).map Column.length).sum ≤
      8 * own.length := weight_le_layOut pieces fun piece _ offset bytes ref stored => by
    obtain ⟨rfl, -⟩ := putPage_plain plain stored
    exact length_le_writePage piece
  rw [Option.elim_none, Nat.zero_add] at whole
  rw [← whole, length] at weighs
  omega

theorem rowGroup_of_putGroup (plain : writer.cipher = none) (restores : crates.Restores)
    (narrow : Narrow crates entry.2) (traced : ∀ row ∈ entry.2, row.traceId ≠ some 0)
    (put : writer.putGroup crates start entry = .ok (block, group)) {ahead behind : Bytes}
    (stands : segment.bytes = ahead ++ (block ++ behind)) (begins : ahead.length = start)
    (small : segment.bytes.length < 2 ^ 63) (verify : Bool) : rowGroup crates segment verify group =
      .ok (entry.2.map fun row =>
        { row with workspaceId := segment.header.workspaceId, projectId := segment.header.projectId }) := by
  obtain ⟨counted, listed⟩ := pages_of_putGroup put
  have backed := backed_of_putGroup plain narrow.filled put
  have merged : List.Forall₂ (fun e p => p.1 = e.1 ∧
      mergePages crates segment verify none p.2 = .ok (some (Column.asRead e.2)))
      (toColumns crates.floatText entry.2).entries group.pages.entries := by
    have among := (forall₂_and_left _ _).mpr ⟨fun e (inside : e ∈ (toColumns crates.floatText entry.2).entries) =>
      readsBack_of_narrow restores narrow inside writer.pageTargetBytes, listed⟩
    refine among.imp fun e p facts => ?_
    obtain ⟨⟨filled, reads⟩, name, laid⟩ := facts
    refine ⟨name, ?_⟩
    rw [← begins] at laid
    obtain ⟨before, own, after, split, made⟩ := laid.inside behind
    obtain ⟨-, pieces⟩ := putColumn_ok made
    exact mergePages_layOut plain pieces (stands.trans split) rfl small
      (fun piece inside before after low => reads.reads_back piece inside before after low verify) reads.whole
  have columns : ((toColumns crates.floatText entry.2).entries.map fun e => (e.1, e.2.asRead)).foldl
      (fun m e => m.insert e.1 e.2) ∅ = columnsRead (toColumns crates.floatText entry.2) :=
    ofList_of_perm (m := columnsRead _) (List.Perm.refl _)
  have room : entry.2.length ≤ 8 * segment.bytes.length := by
    rw [stands, length_append, length_append]
    omega
  rw [rowGroup, readColumns_of merged, ok_bind, columns, counted, toRows_columnsRead timed_toColumns]
  exact toRows_toColumns (fun row inside => (narrow.typed row inside).ascending) traced _ _ room

end

theorem groupRows_layOut (plain : writer.cipher = none) (restores : crates.Restores)
    {groups : List (Nat × List EventRow)} (narrow : ∀ entry ∈ groups, Narrow crates entry.2)
    (traced : ∀ entry ∈ groups, ∀ row ∈ entry.2, row.traceId ≠ some 0) {start : Nat} {written : Bytes}
    {rowGroups : List RowGroup} (laid : layOut (writer.putGroup crates) start groups = .ok (written, rowGroups))
    {ahead behind : Bytes} (stands : segment.bytes = ahead ++ (written ++ behind)) (begins : ahead.length = start)
    (small : segment.bytes.length < 2 ^ 63) (verify : Bool) : groupRows crates segment verify rowGroups =
      .ok ((groups.map Prod.snd).flatten.map fun row =>
        { row with workspaceId := segment.header.workspaceId, projectId := segment.header.projectId }) := by
  induction groups generalizing start written rowGroups ahead with
  | nil =>
    cases laid
    rfl
  | cons entry groups ih =>
    obtain ⟨block, group, blocks, later, first, rest, rfl, rfl⟩ := layOut_cons_ok laid
    obtain ⟨ownNarrow, narrow⟩ := forall_mem_cons.mp narrow
    obtain ⟨ownTraced, traced⟩ := forall_mem_cons.mp traced
    have here : segment.bytes = ahead ++ (block ++ (blocks ++ behind)) := by rw [stands, append_assoc]
    have there : segment.bytes = (ahead ++ block) ++ (blocks ++ behind) := by rw [here, append_assoc]
    have own := rowGroup_of_putGroup plain restores ownNarrow ownTraced first here begins small verify
    have more := ih narrow traced rest there (by rw [length_append, begins])
    rw [groupRows, own, ok_bind, more, ok_bind, ← map_append, map_cons, flatten_cons]

theorem backed_of_layOut (plain : writer.cipher = none) {groups : List (Nat × List EventRow)}
    (filled : ∀ entry ∈ groups, entry.2 ≠ []) {start : Nat} {written : Bytes} {rowGroups : List RowGroup}
    (laid : layOut (writer.putGroup crates) start groups = .ok (written, rowGroups)) :
    (groups.map fun entry => entry.2.length).sum ≤ 8 * written.length :=
  weight_le_layOut laid fun entry inside _ _ _ put => backed_of_putGroup plain (filled entry inside) put

/-! Writing. -/

theorem buildIndex_returns (column : Column) (layout : IndexLayout) (groups : List (List EventRow)) :
    ∃ index, buildIndex crates.checksum column layout groups = .ok index := by
  cases layout with
  | blockFilter =>
    obtain ⟨filters, built, -⟩ := @BlockFilter.buildFilters_spec crates.checksum column groups 0
    exact ⟨.blockFilter filters, by rw [buildIndex, built, ok_bind]⟩
  | termPostings => exact ⟨_, rfl⟩
  | uniqueLookup => exact ⟨_, rfl⟩

theorem buildIndexes_returns (groups : List (List EventRow)) (columns : List (String × Column)) :
    ∃ indexes, buildIndexes crates.checksum groups columns = .ok indexes := by
  induction columns with
  | nil => exact ⟨[], rfl⟩
  | cons e columns ih =>
    obtain ⟨indexes, built⟩ := ih
    unfold buildIndexes
    split
    · exact ⟨indexes, built⟩
    · rename_i layout _
      obtain ⟨index, made⟩ := @buildIndex_returns crates e.2 layout groups
      exact ⟨(e.1, index) :: indexes, by rw [made, ok_bind, built, ok_bind]⟩

theorem write_returns (plain : writer.cipher = none) (filled : rows ≠ []) :
    ∃ segment, writer.write crates rows = .ok segment := by
  obtain ⟨indexes, built⟩ := @buildIndexes_returns crates (writer.splitRows crates rows)
    (toColumns crates.floatText rows).entries
  have pages (start : Nat) (piece : Column) : ∃ made, writer.putPage crates start piece = .ok made := by
    rw [putPage, plain, writePageMaybeEncrypted_none]
    exact ⟨_, rfl⟩
  have columns (start : Nat) (e : String × Column) : ∃ made, writer.putColumn crates start e = .ok made := by
    obtain ⟨made, laid⟩ := @layOut_returns _ _ _ _ (writer.putPage crates) start
      (splitIntoPages crates e.2 writer.pageTargetBytes) fun piece _ start => pages start piece
    rw [putColumn, laid]
    exact ⟨_, rfl⟩
  have groups (start : Nat) (entry : Nat × List EventRow) : ∃ made, writer.putGroup crates start entry = .ok made := by
    obtain ⟨made, laid⟩ := @layOut_returns _ _ _ _ (writer.putColumn crates) start
      (toColumns crates.floatText entry.2).entries fun e _ start => columns start e
    rw [putGroup, laid]
    exact ⟨_, rfl⟩
  have blocks (start : Nat) (e : String × ColumnIndex) : ∃ made, writer.putIndex crates start e = .ok made := by
    rw [putIndex, plain, writeIndexMaybeEncrypted_none]
    exact ⟨_, rfl⟩
  obtain ⟨paged, first⟩ := @layOut_returns _ _ _ _ (writer.putGroup crates)
    (prologueBytes + (encode (headerToCbor (writer.buildHeader rows (writer.splitRows crates rows).length))).length)
    (numbered 0 (writer.splitRows crates rows)) fun entry _ start => groups start entry
  obtain ⟨indexed, second⟩ := @layOut_returns _ _ _ _ (writer.putIndex crates)
    (prologueBytes + (encode (headerToCbor (writer.buildHeader rows (writer.splitRows crates rows).length))).length +
      paged.1.length) indexes fun e _ start => blocks start e
  simp only [write, if_neg filled, built, ok_bind, first, lift_ok, second]
  exact ⟨_, rfl⟩

/-! What the description says of the rows. -/

structure IsRange (pick : EventRow → Int) (rows : List EventRow) (range : Int × Int) : Prop where
  low : ∃ row ∈ rows, pick row = range.1
  high : ∃ row ∈ rows, pick row = range.2
  inside : ∀ row ∈ rows, range.1 ≤ pick row ∧ pick row ≤ range.2

theorem isRange_timeRange {pick : EventRow → Int} (each : ∀ row ∈ rows, InI64 (pick row)) (filled : rows ≠ []) :
    IsRange pick rows (timeRange pick rows) := by
  have folded (rows : List EventRow) (range : Int × Int) :
      let last := rows.foldl (fun range row => (min range.1 (pick row), max range.2 (pick row))) range
      (last.1 = range.1 ∨ ∃ row ∈ rows, pick row = last.1) ∧ (last.2 = range.2 ∨ ∃ row ∈ rows, pick row = last.2) ∧
        (last.1 ≤ range.1 ∧ range.2 ≤ last.2) ∧ ∀ row ∈ rows, last.1 ≤ pick row ∧ pick row ≤ last.2 := by
    induction rows generalizing range with
    | nil => exact ⟨.inl rfl, .inl rfl, ⟨le_refl _, le_refl _⟩, fun _ inside => nomatch inside⟩
    | cons row rows ih =>
      obtain ⟨low, high, ⟨below, above⟩, inside⟩ := ih (min range.1 (pick row), max range.2 (pick row))
      intro last
      refine ⟨?_, ?_, ⟨below.trans (min_le_left _ _), (le_max_left _ _).trans above⟩, fun other there => ?_⟩
      · rcases low with same | ⟨other, there, same⟩
        · rcases min_choice range.1 (pick row) with first | own
          · exact .inl (same.trans first)
          · exact .inr ⟨row, mem_cons_self, (same.trans own).symm⟩
        · exact .inr ⟨other, mem_cons_of_mem _ there, same⟩
      · rcases high with same | ⟨other, there, same⟩
        · rcases max_choice range.2 (pick row) with first | own
          · exact .inl (same.trans first)
          · exact .inr ⟨row, mem_cons_self, (same.trans own).symm⟩
        · exact .inr ⟨other, mem_cons_of_mem _ there, same⟩
      · rcases mem_cons.mp there with rfl | later
        · exact ⟨below.trans (min_le_right _ _), (le_max_right _ _).trans above⟩
        · exact inside other later
  obtain ⟨low, high, -, inside⟩ := folded rows (2 ^ 63 - 1, -2 ^ 63)
  obtain ⟨row, own⟩ := exists_mem_of_ne_nil rows filled
  have held := inside row own
  have bounds := each row own
  unfold InI64 at bounds
  -- a range that no row moved would have every row at an end of the type
  refine ⟨?_, ?_, inside⟩
  · rcases low with same | found
    · refine ⟨row, own, ?_⟩
      have least : (timeRange pick rows).1 = 2 ^ 63 - 1 := same
      have under : (timeRange pick rows).1 ≤ pick row := held.1
      omega
    · exact found
  · rcases high with same | found
    · refine ⟨row, own, ?_⟩
      have greatest : (timeRange pick rows).2 = -2 ^ 63 := same
      have above : pick row ≤ (timeRange pick rows).2 := held.2
      omega
    · exact found

structure Describes (header : Header) (rows : List EventRow) : Prop where
  kinds : ∀ kind, kind ∈ header.kinds ↔ ∃ row ∈ rows, row.kind = kind
  ascending : header.kinds.Pairwise (· < ·)
  occurred : IsRange EventRow.occurredAt rows header.occurredRange
  received : IsRange EventRow.receivedAt rows header.receivedRange
  committed : IsRange EventRow.committedAt rows header.committedRange
  counted : header.rowCount = rows.length

theorem describes_buildHeader (typed : ∀ row ∈ rows, RowFits crates.floatText row) (filled : rows ≠ [])
    (rowGroups : Nat) : Describes (writer.buildHeader rows rowGroups) rows := by
  refine ⟨fun kind => ?_, pairwise_lt_sortDedup Function.injective_id (rows.map EventRow.kind),
    isRange_timeRange (fun row own => (typed row own).occurredAt) filled,
    isRange_timeRange (fun row own => (typed row own).receivedAt) filled,
    isRange_timeRange (fun row own => (typed row own).committedAt) filled, rfl⟩
  show kind ∈ sortDedup (· ≤ ·) (rows.map EventRow.kind) ↔ _
  rw [mem_sortDedup, mem_map]

theorem Parts.rows_back (parts : Parts crates writer rows segment) (plain : writer.cipher = none)
    (restores : crates.Restores) (hash : ∀ bytes, (crates.contentAddress bytes).length = 32)
    (small : segment.bytes.length < 2 ^ 63) (narrow : ∀ group ∈ writer.splitRows crates rows, Narrow crates group)
    (traced : ∀ row ∈ rows, row.traceId ≠ some 0) {back : Segment} (bytes : back.bytes = segment.bytes)
    (listed : back.footer = segment.footer) (counted : back.header.rowCount = rows.length) (verify : Bool) :
    back.rows crates verify = .ok (rows.map fun row =>
      { row with workspaceId := back.header.workspaceId, projectId := back.header.projectId }) := by
  obtain ⟨payload, address⟩ := parts.addressed
  have groups := map_numbered 0 (writer.splitRows crates rows)
  have each : ∀ entry ∈ numbered 0 (writer.splitRows crates rows), Narrow crates entry.2 :=
    fun entry inside => narrow entry.2 (mem_numbered inside).1
  have backed := backed_of_layOut plain (fun entry inside => (each entry inside).filled) parts.paged
  have total : ((numbered 0 (writer.splitRows crates rows)).map fun entry => entry.2.length).sum = rows.length := by
    rw [lengths_numbered, sum_splitRows]
  obtain ⟨before, is⟩ : ∃ before, before = prologue parts.headerBytes.length
    (prologueBytes + (parts.headerBytes ++ (parts.pageBytes ++ parts.indexBytes)).length) segment.contentAddress ++
      parts.headerBytes := ⟨_, rfl⟩
  have stands : back.bytes = before ++ (parts.pageBytes ++ (parts.indexBytes ++ (parts.footerBytes ++ trailer crates
      (prologueBytes + (parts.headerBytes ++ (parts.pageBytes ++ parts.indexBytes)).length) parts.footerBytes))) := by
    rw [bytes, parts.laid]
    simp only [is, append_assoc]
  have begins : before.length = prologueBytes + parts.headerBytes.length := by
    rw [is, length_append, length_prologue _ _ (by rw [address, hash]), prologueBytes]
  have room : back.header.rowCount ≤ 8 * back.bytes.length := by
    rw [counted, ← total, stands, length_append, length_append]
    omega
  have traced : ∀ entry ∈ numbered 0 (writer.splitRows crates rows), ∀ row ∈ entry.2, row.traceId ≠ some 0 := by
    intro entry inside row own
    refine traced row ?_
    rw [← @flatten_splitRows crates writer rows]
    exact mem_flatten.mpr ⟨entry.2, (mem_numbered inside).1, own⟩
  rw [Segment.rows, allocate_of_le room, ok_bind, listed]
  have read := groupRows_layOut plain restores each traced parts.paged stands begins (bytes ▸ small) verify
  rw [groups, flatten_splitRows] at read
  exact read

/-- Rows that share the writer's workspace and project are written, and the file opens under a description of them
and gives them back in order. -/
theorem segment_round_trip (plain : writer.cipher = none) (fits : writer.Fits) (restores : crates.Restores)
    (hash : ∀ bytes, (crates.contentAddress bytes).length = 32) (filled : rows ≠ []) (few : rows.length < 2 ^ 63)
    (typed : ∀ row ∈ rows, RowFits crates.floatText row)
    (shared : ∀ row ∈ rows, row.workspaceId = writer.workspaceId ∧ row.projectId = writer.projectId)
    (traced : ∀ row ∈ rows, row.traceId ≠ some 0)
    (narrow : ∀ group ∈ writer.splitRows crates rows, ∀ e ∈ (toColumns crates.floatText group).entries,
      (encodeValues e.2).length ≤ maxUncompressedPageBytes) : ∃ segment, writer.write crates rows = .ok segment ∧
      ((encode (headerToCbor segment.header)).length < 2 ^ 32 → (encode (footerToCbor segment.footer)).length < 2 ^ 32 →
        segment.bytes.length < 2 ^ 63 → ∃ back, openSegment crates segment.bytes true = .ok back ∧
          back.rows crates true = .ok rows ∧ Describes back.header rows) := by
  obtain ⟨segment, written⟩ := @write_returns crates writer rows plain filled
  refine ⟨segment, written, fun header footer small => ?_⟩
  obtain ⟨parts⟩ := write_parts written
  have opened := parts.opens fits typed (by omega) header footer small hash true
  have each : ∀ group ∈ writer.splitRows crates rows, Narrow crates group := by
    intro group inside
    refine ⟨chunk_ne_nil (Nat.lt_of_lt_of_le one_pos (le_max_right _ _)) inside, fun row own => typed row ?_,
      narrow group inside⟩
    rw [← @flatten_splitRows crates writer rows]
    exact List.mem_flatten.mpr ⟨group, inside, own⟩
  have described := @describes_buildHeader crates writer rows typed filled (writer.splitRows crates rows).length
  rw [← parts.described] at described
  have bytes : ({ segment with header := { segment.header with uncompressedBytes := 0 } } : Segment).bytes =
      segment.bytes := rfl
  have read := parts.rows_back plain restores hash small each traced bytes rfl described.counted true
  have workspace : segment.header.workspaceId = writer.workspaceId := congrArg Header.workspaceId parts.described
  have project : segment.header.projectId = writer.projectId := congrArg Header.projectId parts.described
  refine ⟨_, opened, ?_, ⟨described.kinds, described.ascending, described.occurred, described.received,
    described.committed, described.counted⟩⟩
  rw [read]
  have same : ∀ row ∈ rows, { row with workspaceId := segment.header.workspaceId, projectId := segment.header.projectId } =
      row := by
    intro row own
    obtain ⟨first, second⟩ := shared row own
    rw [workspace, project, ← first, ← second]
  exact congrArg Except.ok ((List.map_congr_left same).trans (List.map_id rows))

/-- A writer without a key, for the workspace and the project of bare rows. -/
def plainWriter : SegmentWriter := .new 1 0 0

theorem fits_plainWriter : plainWriter.Fits :=
  ⟨by decide, by decide, by decide, by decide, fun _ is => nomatch is⟩

theorem restores_smallCrates : smallCrates.Restores := fun _ _ _ made => nomatch made

/-- Three rows, in two row groups. -/
theorem segment_round_trip_small : ∃ segment back, plainWriter.write smallCrates smallRows = .ok segment ∧
    openSegment smallCrates segment.bytes true = .ok back ∧ back.rows smallCrates true = .ok smallRows ∧
      Describes back.header smallRows := by
  have checked : returns (plainWriter.write smallCrates smallRows) (fun segment =>
      (encode (headerToCbor segment.header)).length < 2 ^ 32 ∧ (encode (footerToCbor segment.footer)).length < 2 ^ 32 ∧
        segment.bytes.length < 2 ^ 63) = true := by
    decide +kernel
  obtain ⟨segment, written, facts⟩ := returns_ok checked
  obtain ⟨header, footer, small⟩ := of_decide_eq_true facts
  obtain ⟨made, same, back⟩ := @segment_round_trip smallCrates plainWriter smallRows rfl fits_plainWriter
    restores_smallCrates hash_smallCrates (by decide) (by decide) (by decide +kernel) (by decide) (by decide)
    (by decide +kernel)
  rw [written] at same
  cases same
  obtain ⟨back, opened, read, described⟩ := back header footer small
  exact ⟨segment, back, written, opened, read, described⟩

/-! Rows of more kinds than the length of a description can count. -/

def longKind (letters : Nat) : String := .ofList (List.replicate letters 'k')

def longRows (letters count : Nat) : List EventRow :=
  (List.range count).map fun i => EventRow.new (Fin.ofNat _ i) (longKind (letters + i)) "page" 10

theorem length_longKind (letters : Nat) : (textBytes (longKind letters)).length = letters := by
  rw [longKind, textBytes_ofList]
  induction letters with
  | zero => rfl
  | succ letters ih =>
    have one : (String.utf8EncodeChar 'k').length = 1 := rfl
    rw [replicate_succ, flatMap_cons, length_append, one, ih, Nat.add_comm]

section
variable {letters count : Nat}

theorem mem_longRows {row : EventRow} (inside : row ∈ longRows letters count) :
    ∃ i < count, row = EventRow.new (Fin.ofNat _ i) (longKind (letters + i)) "page" 10 := by
  obtain ⟨i, low, rfl⟩ := mem_map.mp inside
  exact ⟨i, mem_range.mp low, rfl⟩

theorem not_describes_longRows (long : 2 ^ 32 ≤ count * letters) {bytes : Bytes} {verify : Bool} {back : Segment}
    (opened : openSegment crates bytes verify = .ok back) : ¬Describes back.header (longRows letters count) := by
  intro described
  let kinds := (List.range count).map fun i => longKind (letters + i)
  have apart : kinds.Nodup := by
    refine List.Nodup.map (fun i j same => ?_) nodup_range
    have lengths := congrArg (fun kind => (textBytes kind).length) same
    simp only [length_longKind] at lengths
    omega
  have held : kinds ⊆ back.header.kinds := by
    intro kind inside
    obtain ⟨i, low, rfl⟩ := mem_map.mp inside
    exact (described.kinds _).mpr ⟨_, mem_map.mpr ⟨i, low, rfl⟩, rfl⟩
  have least : count * letters ≤ (kinds.map fun kind => (textBytes kind).length).sum := by
    have each : ∀ size ∈ kinds.map (fun kind => (textBytes kind).length), letters ≤ size := by
      intro size inside
      obtain ⟨kind, there, rfl⟩ := mem_map.mp inside
      obtain ⟨i, -, rfl⟩ := mem_map.mp there
      rw [length_longKind]
      exact Nat.le_add_right _ _
    have total := card_nsmul_le_sum _ letters each
    simpa [kinds] using total
  obtain ⟨part, same, within⟩ := subperm_of_subset apart held
  have most : (kinds.map fun kind => (textBytes kind).length).sum ≤
      (back.header.kinds.map fun kind => (textBytes kind).length).sum := by
    rw [← (same.map fun kind => (textBytes kind).length).sum_eq]
    exact (within.map _).sum_le_sum fun _ _ => Nat.zero_le _
  have short := kinds_short opened
  omega

theorem typed_longRows (small : letters + count < 2 ^ 64) :
    ∀ row ∈ longRows letters count, RowFits smallCrates.floatText row := by
  intro row inside
  obtain ⟨i, low, rfl⟩ := mem_longRows inside
  have page : TextFits "page" := by decide
  have moment : InI64 10 ∧ InI64 0 := by decide
  have none : ([] : List (String × PropertyValue × String)).length < 2 ^ 64 := by decide
  refine ⟨?_, page, moment.1, moment.1, moment.2, ?_, ?_, ?_, ?_, none, .nil, ?_⟩
  · show (textBytes (longKind (letters + i))).length < 2 ^ 64
    rw [length_longKind]
    omega
  all_goals
    intro _ none
    cases none

theorem narrow_longRows (some : 4 ≤ letters + count) (small : 2 * (18 + (letters + count)) ≤ maxUncompressedPageBytes) :
    ∀ group ∈ plainWriter.splitRows smallCrates (longRows letters count),
      ∀ e ∈ (toColumns smallCrates.floatText group).entries, (encodeValues e.2).length ≤ maxUncompressedPageBytes := by
  intro group inside e column
  obtain ⟨k, -, rfl⟩ := mem_map.mp inside
  have few : (((longRows letters count).drop (k * 2)).take 2).length ≤ 2 := length_take_le _ _
  have among {row : EventRow} (own : row ∈ ((longRows letters count).drop (k * 2)).take 2) :=
    mem_longRows (mem_of_mem_drop (mem_of_mem_take own))
  have plain : e ∈ envelope (((longRows letters count).drop (k * 2)).take 2) := by
    rcases mem_append.mp (mem_toColumns.mp column) with plain | property
    · exact plain
    · obtain ⟨key, held, -⟩ := mem_flatMap.mp property
      obtain ⟨row, own, there⟩ := mem_flatMap.mp (mem_sortDedup.mp held)
      obtain ⟨i, -, rfl⟩ := among own
      cases there
  have size := @length_encodeValues_envelope (letters + count) _ (fun row own => by
    obtain ⟨i, low, rfl⟩ := among own
    refine ⟨?_, ?_, ?_⟩
    · show (textBytes (longKind (letters + i))).length ≤ letters + count
      rw [length_longKind]
      omega
    · have page : (textBytes "page").length = 4 := by decide
      exact page.le.trans some
    · intro text inside
      have absent : (textBytes "").length = 0 := by decide
      simp only [EventRow.new, mem_cons, not_mem_nil, or_false, or_self] at inside
      rw [inside, Option.getD_none, absent]
      exact Nat.zero_le _) e plain
  exact size.trans ((Nat.mul_le_mul_right _ few).trans small)

end

/-- Every row of 256 comes with a kind of its own, of sixteen mebibytes and a little. They are written, and what
is opened does not describe them: four gibibytes are a length of zero in thirty-two bits. -/
theorem long_description_lost : plainWriter.cipher = none ∧ plainWriter.Fits ∧ smallCrates.Restores ∧
    (∀ bytes, (smallCrates.contentAddress bytes).length = 32) ∧ longRows (2 ^ 24) 256 ≠ [] ∧
    (longRows (2 ^ 24) 256).length < 2 ^ 63 ∧ (∀ row ∈ longRows (2 ^ 24) 256, RowFits smallCrates.floatText row) ∧
    (∀ row ∈ longRows (2 ^ 24) 256, row.workspaceId = plainWriter.workspaceId ∧ row.projectId = plainWriter.projectId) ∧
    (∀ row ∈ longRows (2 ^ 24) 256, row.traceId ≠ some 0) ∧
    (∀ group ∈ plainWriter.splitRows smallCrates (longRows (2 ^ 24) 256),
      ∀ e ∈ (toColumns smallCrates.floatText group).entries, (encodeValues e.2).length ≤ maxUncompressedPageBytes) ∧
    ∃ segment, plainWriter.write smallCrates (longRows (2 ^ 24) 256) = .ok segment ∧
      ∀ back, openSegment smallCrates segment.bytes true = .ok back →
        ¬Describes back.header (longRows (2 ^ 24) 256) := by
  have count : (longRows (2 ^ 24) 256).length = 256 := by rw [longRows, List.length_map, List.length_range]
  have filled : longRows (2 ^ 24) 256 ≠ [] := List.ne_nil_of_length_pos (by rw [count]; decide)
  obtain ⟨segment, written⟩ := @write_returns smallCrates plainWriter _ rfl filled
  refine ⟨rfl, fits_plainWriter, restores_smallCrates, hash_smallCrates, filled, by rw [count]; decide,
    typed_longRows (by decide), fun row inside => ?_, fun row inside => ?_, narrow_longRows (by decide) (by decide),
    segment, written, fun back opened => not_describes_longRows (by decide) opened⟩
  · obtain ⟨i, -, rfl⟩ := mem_longRows inside
    exact ⟨rfl, rfl⟩
  · obtain ⟨i, -, rfl⟩ := mem_longRows inside
    exact fun same => nomatch same

end SegmentWriter

end TallyOwl.SegmentFormat
