import TallyOwl.Store.Segment.Indexed

/-! A written segment opens: its description and its directory read back as they were, its prologue and
its trailer lead to them, and each index block stands where the directory says. -/
open List TallyOwl.Lib.OrderedMap

namespace TallyOwl.SegmentFormat
open Lib Lib.Checked Format Locate Cbor RowCodec

/-! Values whose bytes are counted: the lengths of their parts need no bound of their own. -/

/-- The numbers of a value are of their types, its keys rise, and its containers nest so deep. -/
def Sound : Nat → Value → Prop
  | _, .unsigned v => v < 2 ^ 64
  | _, .negative v => -2 ^ 63 ≤ v ∧ v < 0
  | 0, .array _ | 0, .map _ => False
  | n + 1, .array items => ∀ item ∈ items, Sound n item
  | n + 1, .map entries => (entries.Pairwise fun a b => a.1 < b.1) ∧ ∀ e ∈ entries, Sound n e.2
  | _, .bytes _ | _, .text _ | _, .bool _ | _, .null | _, .float _ => True

theorem length_le_flatMap_of_mem {α : Type} {f : α → Bytes} {xs : List α} {x : α} (inside : x ∈ xs) :
    (f x).length ≤ (xs.flatMap f).length := by
  rw [flatMap_def]
  exact (sublist_flatten_of_mem (mem_map.mpr ⟨x, inside, rfl⟩)).length_le

variable {n : Nat}

theorem fits_of_sound {v : Value} (sound : Sound n v) (short : (Cbor.write v).length < 2 ^ 64) : v.Fits n := by
  induction n generalizing v with
  | zero =>
    cases v with
    | unsigned v => simpa [Value.Fits, Sound] using sound
    | negative v => simpa [Value.Fits, Sound] using sound
    | bytes v =>
      simp only [Cbor.write, length_append] at short
      simp only [Value.Fits]
      omega
    | text v =>
      simp only [Cbor.write, writeText, length_append] at short
      simp only [Value.Fits]
      omega
    | array items => exact sound.elim
    | map entries => exact sound.elim
    | _ => simp [Value.Fits]
  | succ n ih =>
    cases v with
    | unsigned v => simpa [Value.Fits, Sound] using sound
    | negative v => simpa [Value.Fits, Sound] using sound
    | bytes v =>
      simp only [Cbor.write, length_append] at short
      simp only [Value.Fits]
      omega
    | text v =>
      simp only [Cbor.write, writeText, length_append] at short
      simp only [Value.Fits]
      omega
    | array items =>
      rw [Cbor.write, writeItems_eq, length_append] at short
      have members := length_le_flatMap items fun item _ => length_write_pos item
      refine ⟨by omega, fun item inside => ih (sound item inside) ?_⟩
      have own := @length_le_flatMap_of_mem _ Cbor.write _ _ inside
      omega
    | map entries =>
      obtain ⟨shuffled, perm, written⟩ := write_map entries
      rw [written, length_append] at short
      have members := length_le_flatMap shuffled (f := fun e => writeText e.1 ++ Cbor.write e.2) fun e _ => by
        have := length_write_pos e.2
        simp only [length_append]
        omega
      rw [perm.length_eq] at members
      refine ⟨by omega, sound.1, fun e inside => ?_⟩
      have own : (writeText e.1 ++ Cbor.write e.2).length ≤ _ :=
        @length_le_flatMap_of_mem _ (fun e : String × Value => writeText e.1 ++ Cbor.write e.2) _ _
          (perm.mem_iff.mpr inside)
      have text : (textBytes e.1).length ≤ (writeText e.1).length := by
        rw [writeText, length_append]
        omega
      rw [length_append] at own
      exact ⟨by omega, ih (sound.2 e inside) (by omega)⟩
    | _ => simp [Value.Fits]

def Sounds (n : Nat) (entries : MapBuilder) : Prop := ∀ e ∈ entries.entries, Sound n e.2

theorem Sounds.empty (n : Nat) : Sounds n ∅ := by simp [Sounds]

variable {entries : MapBuilder}

theorem Sounds.put (sounds : Sounds n entries) (key : String) {value : Value}
    (sound : Sound n value) : Sounds n (entries.put key value) := by
  intro e inside
  rcases mem_insert.mp inside with rfl | ⟨old, -⟩
  · exact sound
  · exact sounds e old

theorem Sounds.putSome (sounds : Sounds n entries) (key : String)
    {value : Option Value} (sound : ∀ v, value = some v → Sound n v) : Sounds n (entries.putSome key value) := by
  cases value with
  | none => exact sounds
  | some v => exact sounds.put key (sound v rfl)

theorem Sounds.build (sounds : Sounds n entries) :
    Sound (n + 1) (MapBuilder.build entries) := ⟨entries.ascending, sounds⟩

theorem sound_integer {v : Int} (fits : InI64 v) : Sound n (Value.integer v) := by
  unfold InI64 at fits
  unfold Value.integer
  split
  · simp only [Sound]
    omega
  · simp only [Sound]
    omega

/-! The description. -/

structure HeaderFits (header : Header) : Prop where
  tabletId : header.tabletId < 2 ^ 64
  virtualShard : header.virtualShard < 2 ^ 64
  occurred : InI64 header.occurredRange.1 ∧ InI64 header.occurredRange.2
  received : InI64 header.receivedRange.1 ∧ InI64 header.receivedRange.2
  committed : InI64 header.committedRange.1 ∧ InI64 header.committedRange.2
  log : header.logRange.1 < 2 ^ 64 ∧ header.logRange.2 < 2 ^ 64
  rowCount : header.rowCount < 2 ^ 64
  rowGroupCount : header.rowGroupCount < 2 ^ 64
  projectorVersion : header.projectorVersion < 2 ^ 64

theorem sound_pair {range : Int × Int} (fits : InI64 range.1 ∧ InI64 range.2) : Sound (n + 1) (pairToCbor range) := by
  intro item inside
  simp only [mem_cons, not_mem_nil, or_false] at inside
  rcases inside with rfl | rfl
  · exact sound_integer fits.1
  · exact sound_integer fits.2

theorem sound_headerToCbor {header : Header} (fits : HeaderFits header) (n : Nat) :
    Sound (n + 2) (headerToCbor header) := by
  have kinds : Sound (n + 1) (.array (header.kinds.map .text)) := by
    intro item inside
    obtain ⟨kind, -, rfl⟩ := mem_map.mp inside
    simp [Sound]
  have log : Sound (n + 1) (.array [.unsigned header.logRange.1, .unsigned header.logRange.2]) := by
    intro item inside
    simp only [mem_cons, not_mem_nil, or_false] at inside
    rcases inside with rfl | rfl
    · simpa [Sound] using fits.log.1
    · simpa [Sound] using fits.log.2
  have count {v : Nat} (small : v < 2 ^ 64) : Sound (n + 1) (.unsigned v) := by simpa [Sound] using small
  have bytes (v : Bytes) : Sound (n + 1) (.bytes v) := by simp [Sound]
  have text (v : String) : Sound (n + 1) (.text v) := by simp [Sound]
  refine Sounds.build ?_
  exact Sounds.empty (n + 1)
    |>.put _ (count (by decide))
    |>.put _ (bytes _)
    |>.put _ (count fits.tabletId)
    |>.put _ (count fits.virtualShard)
    |>.put _ (bytes _)
    |>.put _ (bytes _)
    |>.put _ kinds
    |>.put _ (text _)
    |>.put _ (sound_pair fits.occurred)
    |>.put _ (sound_pair fits.received)
    |>.put _ (sound_pair fits.committed)
    |>.put _ log
    |>.put _ (count fits.rowCount)
    |>.put _ (count fits.rowGroupCount)
    |>.put _ (count fits.projectorVersion)

theorem headerFromCbor_headerToCbor {header : Header} (fits : HeaderFits header) :
    headerFromCbor (headerToCbor header) = .ok { header with uncompressedBytes := 0, compressedBytes := 0 } := by
  have field : ∀ name, (headerToCbor header).field name = (headerFields header).get? name :=
    fun name => by rw [headerToCbor, field_build]
  have ids : ∀ name (id : Id), (headerFields header).get? name = some (.bytes id.bytes) →
      headerId (headerToCbor header) name = .ok id := by
    intro name id found
    simp [headerId, field, found, Value.asBytes]
  have pairs : ∀ name (range : Int × Int), InI64 range.1 ∧ InI64 range.2 →
      (headerFields header).get? name = some (pairToCbor range) →
      headerPair (headerToCbor header) name = .ok range := by
    intro name range inside found
    simp [headerPair, field, found, pairToCbor, Value.asArray, asInteger_integer inside.1,
      asInteger_integer inside.2]
  have counts : ∀ name v, (headerFields header).get? name = some (.unsigned v) →
      headerCount (headerToCbor header) name = v := by
    intro name v found
    simp [headerCount, field, found, Value.asUnsigned]
  have log : headerLog (headerToCbor header) = .ok header.logRange := by
    have found : (headerFields header).get? "log" =
        some (.array [.unsigned header.logRange.1, .unsigned header.logRange.2]) := by
      simp [headerFields, get?_put]
    simp [headerLog, field, found, Value.asArray, Value.asUnsigned]
  have kinds : (header.kinds.map Value.text).filterMap Value.asText = header.kinds := by
    rw [filterMap_map]
    exact filterMap_some
  rw [headerFromCbor, counts "v" formatMajor (by simp [headerFields, get?_put]), if_neg (by simp),
    ids "id" header.segmentId (by simp [headerFields, get?_put]),
    ids "ws" header.workspaceId (by simp [headerFields, get?_put]),
    ids "pr" header.projectId (by simp [headerFields, get?_put]),
    pairs "occ" header.occurredRange fits.occurred (by simp [headerFields, get?_put]),
    pairs "rec" header.receivedRange fits.received (by simp [headerFields, get?_put]),
    pairs "com" header.committedRange fits.committed (by simp [headerFields, get?_put]), log]
  simp only [bind, Except.bind, counts "tab" header.tabletId (by simp [headerFields, get?_put]),
    counts "vs" header.virtualShard (by simp [headerFields, get?_put]),
    counts "rows" header.rowCount (by simp [headerFields, get?_put]),
    counts "rg" header.rowGroupCount (by simp [headerFields, get?_put]),
    counts "proj" header.projectorVersion (by simp [headerFields, get?_put])]
  have list : ((headerToCbor header).field "kinds").bind Value.asArray = some (header.kinds.map .text) := by
    rw [field, show (headerFields header).get? "kinds" = some (.array (header.kinds.map .text)) by
      simp [headerFields, get?_put]]
    rfl
  have kept : ((headerToCbor header).field "ret").bind Value.asText = some header.retentionClass := by
    rw [field, show (headerFields header).get? "ret" = some (.text header.retentionClass) by
      simp [headerFields, get?_put]]
    rfl
  rw [list, kept, Option.getD_some, Option.getD_some, kinds]

/-! The directory. -/

structure FooterFits (footer : Footer) : Prop where
  groups : ∀ group ∈ footer.rowGroups, group.firstRow < 2 ^ 64 ∧ group.rows < 2 ^ 64 ∧
    ∀ entry ∈ group.pages.entries, ∀ ref ∈ entry.2, ref.offset < 2 ^ 64 ∧ ref.rows < 2 ^ 64
  indexes : ∀ entry ∈ footer.indexes.entries, entry.2.1 < 2 ^ 64
  hash : footer.payloadHash.length = 32
  key : ∀ key, footer.keyReference = some key → key.algorithm < 2 ^ 16 ∧ key.generation < 2 ^ 32

theorem IndexLayout.number_lt (layout : IndexLayout) : layout.number < 2 ^ 16 := by
  cases layout <;> decide

theorem sound_refsToCbor {refs : List PageRef} (fits : ∀ ref ∈ refs, ref.offset < 2 ^ 64 ∧ ref.rows < 2 ^ 64)
    (n : Nat) : Sound (n + 1) (refsToCbor refs) := by
  intro item inside
  obtain ⟨ref, there, own⟩ := mem_flatMap.mp inside
  obtain ⟨offset, rows⟩ := fits ref there
  simp only [mem_cons, not_mem_nil, or_false] at own
  rcases own with rfl | rfl
  · simpa [Sound] using offset
  · simpa [Sound] using rows

theorem sound_two {n a b : Nat} (first : a < 2 ^ 64) (second : b < 2 ^ 64) :
    Sound (n + 1) (.array [.unsigned a, .unsigned b]) := by
  intro item inside
  simp only [mem_cons, not_mem_nil, or_false] at inside
  rcases inside with rfl | rfl
  · simpa [Sound] using first
  · simpa [Sound] using second

theorem sound_footerToCbor {footer : Footer} (fits : FooterFits footer) (n : Nat) :
    Sound (n + 5) (footerToCbor footer) := by
  have groups : Sound (n + 4) (.array (footer.rowGroups.map groupToCbor)) := by
    intro item inside
    obtain ⟨group, there, rfl⟩ := mem_map.mp inside
    obtain ⟨first, rows, pages⟩ := fits.groups group there
    have listed : Sound (n + 2) (.map (group.pages.mapValues fun _ refs => refsToCbor refs).entries) := by
      refine ⟨(group.pages.mapValues _).ascending, fun e member => ?_⟩
      obtain ⟨entry, own, rfl⟩ := mem_map.mp member
      exact sound_refsToCbor (pages entry own) n
    refine Sounds.build ?_
    exact Sounds.empty (n + 2)
      |>.put _ (by simpa [Sound] using first)
      |>.put _ (by simpa [Sound] using rows)
      |>.put _ listed
  have indexes : Sound (n + 4) (.map (footer.indexes.mapValues fun _ place =>
      .array [.unsigned place.1, .unsigned place.2.number]).entries) := by
    refine ⟨(footer.indexes.mapValues _).ascending, fun e member => ?_⟩
    obtain ⟨entry, own, rfl⟩ := mem_map.mp member
    have layout := entry.2.2.number_lt
    exact sound_two (fits.indexes entry own) (by omega)
  have key : ∀ v, (footer.keyReference.map fun key =>
      Value.array [.unsigned key.algorithm, .unsigned key.generation]) = some v → Sound (n + 4) v := by
    intro v found
    obtain ⟨key, held, rfl⟩ := Option.map_eq_some_iff.mp found
    obtain ⟨algorithm, generation⟩ := fits.key key held
    exact sound_two (by omega) (by omega)
  refine Sounds.build ?_
  exact Sounds.empty (n + 4)
    |>.put _ groups
    |>.put _ indexes
    |>.put _ (by simp [Sound])
    |>.putSome _ key

theorem refsFrom_refsToCbor (refs : List PageRef) :
    refsFrom (refs.flatMap fun r => [.unsigned r.offset, .unsigned r.rows]) = refs := by
  induction refs with
  | nil => rfl
  | cons ref refs ih => simp [refsFrom, ih, Value.asUnsigned]

theorem mapM_self {α ε : Type} {f : α → Except ε α} {xs : List α} (each : ∀ x ∈ xs, f x = .ok x) :
    xs.mapM f = .ok xs := by
  simpa using mapM_ok (g := id) each

theorem groupFromCbor_groupToCbor (group : RowGroup) : groupFromCbor (groupToCbor group) = .ok group := by
  have pages : ((group.pages.mapValues fun _ refs => refsToCbor refs).entries).mapM refsFromCbor =
      .ok group.pages.entries := by
    rw [OrderedMap.mapValues, mapM_map]
    refine mapM_self fun entry _ => ?_
    simp [refsFromCbor, refsToCbor, Value.asArray, refsFrom_refsToCbor]
  have whole : OrderedMap.ofList group.pages.entries = group.pages := ofList_of_perm (List.Perm.refl _)
  simp only [groupFromCbor, groupToCbor, field_build, get?_put, get?_empty]
  simp [Value.asMap, Value.asUnsigned, pages, whole, bind, Except.bind]

theorem footerFromCbor_footerToCbor {footer : Footer} (fits : FooterFits footer) :
    footerFromCbor (footerToCbor footer) = .ok footer := by
  have field : ∀ name, (footerToCbor footer).field name = (footerFields footer).get? name :=
    fun name => by rw [footerToCbor, field_build]
  have groups : (footer.rowGroups.map groupToCbor).mapM groupFromCbor = .ok footer.rowGroups := by
    rw [mapM_map]
    exact mapM_self fun group _ => groupFromCbor_groupToCbor group
  have indexes : ((footer.indexes.mapValues fun _ place =>
      Value.array [.unsigned place.1, .unsigned place.2.number]).entries).filterMap indexFromCbor =
        footer.indexes.entries := by
    have each (entry : String × (Nat × IndexLayout)) :
        indexFromCbor (entry.1, .array [.unsigned entry.2.1, .unsigned entry.2.2.number]) = some entry := by
      have small : entry.2.2.number % 65536 = entry.2.2.number := Nat.mod_eq_of_lt entry.2.2.number_lt
      simp [indexFromCbor, Value.asArray, Value.asUnsigned, small]
    rw [OrderedMap.mapValues, filterMap_map]
    exact (filterMap_congr fun entry _ => each entry).trans filterMap_some
  have whole : OrderedMap.ofList footer.indexes.entries = footer.indexes :=
    ofList_of_perm (List.Perm.refl _)
  have key : (footer.keyReference.map fun key =>
      Value.array [.unsigned key.algorithm, .unsigned key.generation]).bind keyFromCbor = footer.keyReference := by
    cases held : footer.keyReference with
    | none => rfl
    | some key =>
      obtain ⟨algorithm, generation⟩ := fits.key key held
      have one : key.algorithm % 65536 = key.algorithm := Nat.mod_eq_of_lt algorithm
      have two : key.generation % 4294967296 = key.generation := Nat.mod_eq_of_lt generation
      simp [keyFromCbor, Value.asArray, Value.asUnsigned, one, two]
  have one : (footerFields footer).get? "rg" = some (.array (footer.rowGroups.map groupToCbor)) := by
    simp [footerFields, get?_put, get?_putSome]
  have two : (footerFields footer).get? "idx" = some (.map (footer.indexes.mapValues fun _ place =>
      Value.array [.unsigned place.1, .unsigned place.2.number]).entries) := by
    simp [footerFields, get?_put, get?_putSome]
  have three : (footerFields footer).get? "hash" = some (.bytes footer.payloadHash) := by
    simp [footerFields, get?_put, get?_putSome]
  have four : (footerFields footer).get? "key" = footer.keyReference.map fun key =>
      Value.array [.unsigned key.algorithm, .unsigned key.generation] := by
    simp [footerFields, get?_put, get?_putSome, get?_empty]
  simp [footerFromCbor, field, one, two, three, four, Value.asArray, Value.asMap, Value.asBytes, groups, indexes,
    whole, key, fits.hash, bind, Except.bind]

/-! Opening. -/

theorem decodePart_of_ok {bytes : Bytes} (small : bytes.length < 2 ^ 63) {value : Value}
    (decoded : decode bytes = .ok value) (what : String) : decodePart what bytes = .ok value := by
  rw [decodePart, decodeChecked_eq small, decoded]
  rfl

@[simp] theorem length_magic : magic.length = 8 := by decide

@[simp] theorem length_trailerMagic : trailerMagic.length = 8 := by decide

namespace SegmentWriter
variable {crates : Crates} {bytes : Bytes}

theorem length_prologue (headerLength footerOffset : Nat) {address : Bytes} (wide : address.length = 32) :
    (prologue headerLength footerOffset address).length = 64 := by
  simp [prologue, wide]

theorem length_trailer (footerOffset : Nat) (footerBytes : Bytes) :
    (trailer crates footerOffset footerBytes).length = 32 := by
  simp [trailer]

theorem openFooter_trailer {before footerBytes : Bytes} {value : Value} {footer : Footer}
    (laid : bytes = before ++ (footerBytes ++ trailer crates before.length footerBytes))
    (short : footerBytes.length < 2 ^ 32) (small : bytes.length < 2 ^ 63)
    (decoded : decode footerBytes = .ok value) (read : footerFromCbor value = .ok footer) (verify : Bool) :
    openFooter crates bytes verify = .ok footer := by
  have size : bytes.length = before.length + footerBytes.length + 32 := by
    rw [laid, length_append, length_append, length_trailer, Nat.add_assoc]
  have sum := (crates.checksum footerBytes).toNat_lt
  have offset := getU64_append (before ++ footerBytes) (putU32 footerBytes.length ++
    (putU64 (crates.checksum footerBytes).toNat ++ (putU32 formatMinor ++ trailerMagic))) before.length (by omega)
  have length := getU32_append (before ++ (footerBytes ++ putU64 before.length))
    (putU64 (crates.checksum footerBytes).toNat ++ (putU32 formatMinor ++ trailerMagic)) footerBytes.length short
  have checksum := getU64_append (before ++ (footerBytes ++ (putU64 before.length ++ putU32 footerBytes.length)))
    (putU32 formatMinor ++ trailerMagic) (crates.checksum footerBytes).toNat sum
  have whole := slice_append before footerBytes (trailer crates before.length footerBytes)
  rw [← laid] at whole
  rw [trailer] at laid
  simp only [append_assoc, length_append, length_putU64, length_putU32, ← Nat.add_assoc]
    at offset length checksum
  rw [← laid] at offset length checksum
  rw [openFooter, trailerBytes, minus_of_le (by omega), ok_bind,
    show bytes.length - 32 = before.length + footerBytes.length by omega, offset, lift_ok, ok_bind,
    word_of_lt (by omega), ok_bind, length, lift_ok, ok_bind, word_of_lt (by omega), ok_bind,
    show before.length + footerBytes.length + 12 = before.length + footerBytes.length + 8 + 4 by omega, checksum,
    lift_ok, ok_bind, whole, lift_ok, ok_bind, if_neg (by simp), decodePart_of_ok (by omega) decoded, ok_bind, read,
    lift_ok]

theorem openHeader_prologue {headerBytes after address : Bytes} {footerOffset : Nat} {value : Value} {header : Header}
    (laid : bytes = prologue headerBytes.length footerOffset address ++ (headerBytes ++ after))
    (wide : address.length = 32) (short : headerBytes.length < 2 ^ 32)
    (decoded : decode headerBytes = .ok value) (read : headerFromCbor value = .ok header) :
    openHeader bytes = .ok { header with compressedBytes := bytes.length } := by
  have whole := slice_append (prologue headerBytes.length footerOffset address) headerBytes after
  rw [← laid, length_prologue _ _ wide] at whole
  have major := getU16_append magic (putU16 formatMinor ++ (putU32 headerBytes.length ++ (putU64 prologueBytes ++
    (putU64 footerOffset ++ (address ++ (headerBytes ++ after)))))) formatMajor (by decide)
  have length := getU32_append (magic ++ (putU16 formatMajor ++ putU16 formatMinor)) (putU64 prologueBytes ++
    (putU64 footerOffset ++ (address ++ (headerBytes ++ after)))) headerBytes.length short
  have offset := getU64_append (magic ++ (putU16 formatMajor ++ (putU16 formatMinor ++ putU32 headerBytes.length)))
    (putU64 footerOffset ++ (address ++ (headerBytes ++ after))) prologueBytes (by decide)
  simp only [prologue, append_assoc] at laid
  simp only [append_assoc, length_append, length_magic, length_putU16, length_putU32, Nat.reduceAdd]
    at major length offset
  rw [← laid] at major length offset
  rw [prologueBytes] at offset
  rw [openHeader, major, lift_ok, ok_bind, if_neg (by simp), length, lift_ok, ok_bind, offset, lift_ok, ok_bind,
    whole, lift_ok, ok_bind, decodePart_of_ok (by omega) decoded, ok_bind, read, lift_ok, ok_bind]

theorem openSegment_laidOut {header : Header} {footer : Footer} {headerBytes middle footerBytes address : Bytes}
    (described : HeaderFits header) (listed : FooterFits footer) (agree : header.rowCount = listedRows footer.rowGroups)
    (own : headerBytes = encode (headerToCbor header)) (ownFooter : footerBytes = encode (footerToCbor footer))
    (laid : bytes = prologue headerBytes.length (prologueBytes + (headerBytes ++ middle).length) address ++
      ((headerBytes ++ middle) ++ (footerBytes ++
        trailer crates (prologueBytes + (headerBytes ++ middle).length) footerBytes)))
    (wide : address.length = 32) (shortHeader : headerBytes.length < 2 ^ 32)
    (shortFooter : footerBytes.length < 2 ^ 32) (small : bytes.length < 2 ^ 63) (verify : Bool) :
    openSegment crates bytes verify =
      .ok ⟨{ header with uncompressedBytes := 0, compressedBytes := bytes.length }, footer, bytes, address⟩ := by
  have description : decode headerBytes = .ok (headerToCbor header) := by
    rw [own] at shortHeader ⊢
    exact decode_encode (fits_of_sound (sound_headerToCbor described 30) (by unfold encode at shortHeader; omega))
  have directory : decode footerBytes = .ok (footerToCbor footer) := by
    rw [ownFooter] at shortFooter ⊢
    exact decode_encode (fits_of_sound (sound_footerToCbor listed 27) (by unfold encode at shortFooter; omega))
  let start := prologue headerBytes.length (prologueBytes + (headerBytes ++ middle).length) address
  have front : start.length = 64 := length_prologue _ _ wide
  have place : prologueBytes + (headerBytes ++ middle).length = (start ++ (headerBytes ++ middle)).length := by
    rw [@length_append _ start, front, prologueBytes]
  have one := @openHeader_prologue bytes headerBytes
    (middle ++ (footerBytes ++ trailer crates (prologueBytes + (headerBytes ++ middle).length) footerBytes)) address
    _ _ _ (by rw [laid, append_assoc headerBytes]) wide shortHeader description
    (headerFromCbor_headerToCbor described)
  have two := @openFooter_trailer crates bytes (start ++ (headerBytes ++ middle)) footerBytes _ _
    (by rw [← place, laid, append_assoc start]) shortFooter small directory
    (footerFromCbor_footerToCbor listed) verify
  have size : bytes.length = 64 + (headerBytes ++ middle).length + footerBytes.length + 32 := by
    rw [laid, length_append, @length_append _ (headerBytes ++ middle), @length_append _ footerBytes,
      length_trailer, length_prologue _ _ wide]
    omega
  have first : (part bytes 0 8 : Checked FormatError Bytes) = .ok magic := by
    rw [laid, prologue, append_assoc magic]
    exact part_append [] magic _
  have last : (part bytes (bytes.length - 8) bytes.length : Checked FormatError Bytes) = .ok trailerMagic := by
    obtain ⟨before, split⟩ : ∃ before, bytes = before ++ (trailerMagic ++ []) := by
      rw [laid, trailer]
      simp only [← append_assoc, append_nil]
      exact ⟨_, rfl⟩
    have read := part_append before trailerMagic []
    rw [← split] at read
    have counted : bytes.length = before.length + 8 := by rw [split]; simp
    rwa [length_trailerMagic, ← counted, show before.length = bytes.length - 8 by omega] at read
  have addressed : (part bytes 32 64 : Checked FormatError Bytes) = .ok address := by
    have read := part_append (magic ++ (putU16 formatMajor ++ (putU16 formatMinor ++ (putU32 headerBytes.length ++
      (putU64 prologueBytes ++ putU64 (prologueBytes + (headerBytes ++ middle).length)))))) address
      ((headerBytes ++ middle) ++ (footerBytes ++
        trailer crates (prologueBytes + (headerBytes ++ middle).length) footerBytes))
    simp only [append_assoc, length_append, length_magic, length_putU16, length_putU32, length_putU64, wide,
      Nat.reduceAdd] at read
    simp only [prologue, append_assoc, length_append] at laid
    rwa [← laid] at read
  rw [openSegment, if_neg (by unfold prologueBytes trailerBytes; omega), first, ok_bind, if_neg (by simp),
    minus_of_le (by omega), ok_bind, last, ok_bind, if_neg (by simp), two, ok_bind, one, ok_bind, if_neg (by simpa using agree),
    addressed, ok_bind]

end SegmentWriter

end TallyOwl.SegmentFormat
