import TallyOwl.Store.Segment.Schema

/-! Rows survive the projection into columns and back (`segment/schema.rs`). A column name
tells its key and its suffix whatever the key is, so no two columns share a name, and the type
column of a key tells which value column holds each row's value. -/
namespace TallyOwl.SegmentFormat
open Lib Format RowCodec List OrderedMap

/-! Names. -/

theorem toList_columnName (key suffix : String) :
    (columnName key suffix).toList = 'p' :: ':' :: (key.toList ++ suffix.toList) := by
  simp [columnName, propertyPrefix]

theorem columnName_inj {key key' suffix suffix' : String} (two : suffix.toList.length = 2)
    (two' : suffix'.toList.length = 2) (same : columnName key suffix = columnName key' suffix') :
    key = key' ∧ suffix = suffix' := by
  have chars := congrArg String.toList same
  simp only [toList_columnName, List.cons.injEq, true_and] at chars
  obtain ⟨keys, suffixes⟩ := append_inj' chars (two.trans two'.symm)
  exact ⟨String.toList_inj.mp keys, String.toList_inj.mp suffixes⟩

theorem typeKey_columnName (key : String) : typeKey (columnName key typeSuffix) = some key := by
  have chars := toList_columnName key typeSuffix
  have start : propertyPrefix.toList <+: (columnName key typeSuffix).toList := by
    rw [chars]
    exact ⟨key.toList ++ typeSuffix.toList, rfl⟩
  have rest : (columnName key typeSuffix).toList.drop 2 = key.toList ++ typeSuffix.toList := by
    rw [chars]
    rfl
  have size : (key.toList ++ typeSuffix.toList).length - 2 = key.toList.length := by
    rw [length_append]
    exact Nat.add_sub_cancel _ 2
  rw [typeKey]
  dsimp only
  rw [if_pos start, rest, if_pos (suffix_append _ _), size, take_left', String.ofList_toList]
  rfl

theorem typeKey_other {key suffix : String} (two : suffix.toList.length = 2)
    (other : suffix ≠ typeSuffix) : typeKey (columnName key suffix) = none := by
  have chars := toList_columnName key suffix
  have start : propertyPrefix.toList <+: (columnName key suffix).toList := by
    rw [chars]
    exact ⟨key.toList ++ suffix.toList, rfl⟩
  have rest : (columnName key suffix).toList.drop 2 = key.toList ++ suffix.toList := by
    rw [chars]
    rfl
  have ends : ¬typeSuffix.toList <:+ key.toList ++ suffix.toList := by
    rintro ⟨before, same⟩
    have equal := (append_inj' same (by rw [two]; rfl)).2
    exact other (String.toList_inj.mp equal.symm)
  rw [typeKey]
  dsimp only
  rw [if_pos start, rest, if_neg ends]

theorem length_valueSuffix (typeName : String) : (valueSuffix typeName).toList.length = 2 := by
  unfold valueSuffix
  split <;> rfl

theorem valueSuffix_ne (typeName : String) :
    valueSuffix typeName ≠ typeSuffix ∧ valueSuffix typeName ≠ originSuffix := by
  unfold valueSuffix
  split <;> decide

section
variable {floatText : UInt64 → String} {rows : List EventRow}

def partColumn (floatText : UInt64 → String) (rows : List EventRow) (key suffix : String) : Column :=
  if suffix = typeSuffix then
    .text (rows.map fun r => (propertyOf r key).map fun p => typeName p.1)
  else if suffix = originSuffix then .text (rows.map fun r => (propertyOf r key).map Prod.snd)
  else valueColumn floatText suffix (rows.map (valueUnder key suffix))

def projected (floatText : UInt64 → String) (rows : List EventRow) : List (String × Column) :=
  envelope rows ++ (keysOf rows).flatMap (keyColumns floatText rows)

theorem mem_keyColumns {key : String} {e : String × Column} : e ∈ keyColumns floatText rows key ↔
      ∃ suffix, (suffix = typeSuffix ∨ suffix = originSuffix ∨
          ∃ typeName ∈ typesOf rows key, suffix = valueSuffix typeName) ∧
        e = (columnName key suffix, partColumn floatText rows key suffix) := by
  have value : ∀ typeName, partColumn floatText rows key (valueSuffix typeName) =
      valueColumn floatText (valueSuffix typeName) (rows.map (valueUnder key (valueSuffix typeName))) := by
    intro typeName
    rw [partColumn, if_neg (valueSuffix_ne typeName).1, if_neg (valueSuffix_ne typeName).2]
  have origin : partColumn floatText rows key originSuffix =
      .text (rows.map fun r => (propertyOf r key).map Prod.snd) := by
    rw [partColumn, if_neg (by decide), if_pos rfl]
  have kind : partColumn floatText rows key typeSuffix =
      .text (rows.map fun r => (propertyOf r key).map fun p => typeName p.1) := by
    rw [partColumn, if_pos rfl]
  simp only [keyColumns, mem_cons, mem_map, mem_sortDedup]
  constructor
  · rintro (rfl | rfl | ⟨suffix, ⟨typeName, there, rfl⟩, rfl⟩)
    · exact ⟨_, .inl rfl, by rw [kind]⟩
    · exact ⟨_, .inr (.inl rfl), by rw [origin]⟩
    · exact ⟨_, .inr (.inr ⟨typeName, there, rfl⟩), by rw [value]⟩
  · rintro ⟨suffix, rfl | rfl | ⟨typeName, there, rfl⟩, rfl⟩
    · exact .inl (by rw [kind])
    · exact .inr (.inl (by rw [origin]))
    · exact .inr (.inr ⟨_, ⟨typeName, there, rfl⟩, by rw [value]⟩)

theorem length_suffix {key suffix : String} (known : suffix = typeSuffix ∨ suffix = originSuffix ∨
    ∃ typeName ∈ typesOf rows key, suffix = valueSuffix typeName) : suffix.toList.length = 2 := by
  rcases known with rfl | rfl | ⟨typeName, -, rfl⟩
  · rfl
  · rfl
  · exact length_valueSuffix typeName

theorem mem_projected {e : String × Column} (inside : e ∈ projected floatText rows) :
    e ∈ envelope rows ∨ ∃ key suffix, suffix.toList.length = 2 ∧
      e = (columnName key suffix, partColumn floatText rows key suffix) := by
  rcases mem_append.mp inside with plain | property
  · exact .inl plain
  · obtain ⟨key, -, there⟩ := mem_flatMap.mp property
    obtain ⟨suffix, known, same⟩ := mem_keyColumns.mp there
    exact .inr ⟨key, suffix, length_suffix known, same⟩

theorem envelope_name {e : String × Column} (inside : e ∈ envelope rows) : ¬propertyPrefix.toList <+: e.1.toList := by
  have names : ∀ name ∈ (envelope rows).map Prod.fst, ¬propertyPrefix.toList <+: name.toList := by
    show ∀ name ∈ ["event_id", "batch_id", "source_id", "kind", "name", "occurred_at", "received_at",
      "committed_at", "session_id", "request_id", "service_name", "release", "trace_id"], _
    decide
  exact names _ (mem_map_of_mem inside)

theorem columnName_prefixed (key suffix : String) : propertyPrefix.toList <+: (columnName key suffix).toList := by
  rw [toList_columnName]
  exact ⟨key.toList ++ suffix.toList, rfl⟩

theorem projected_unique {e f : String × Column} (first : e ∈ projected floatText rows)
    (second : f ∈ projected floatText rows) (same : e.1 = f.1) : e.2 = f.2 := by
  have distinct : ((envelope rows).map Prod.fst).Nodup := by
    show ["event_id", "batch_id", "source_id", "kind", "name", "occurred_at", "received_at",
      "committed_at", "session_id", "request_id", "service_name", "release", "trace_id"].Nodup
    decide
  rcases mem_projected first with plain | ⟨key, suffix, two, rfl⟩
  · rcases mem_projected second with plain' | ⟨key', suffix', -, rfl⟩
    · rw [inj_on_of_nodup_map distinct plain plain' same]
    · exact (envelope_name plain (same ▸ columnName_prefixed key' suffix')).elim
  · rcases mem_projected second with plain' | ⟨key', suffix', two', rfl⟩
    · exact (envelope_name plain' (same ▸ columnName_prefixed key suffix)).elim
    · obtain ⟨rfl, rfl⟩ := columnName_inj two two' same
      rfl

theorem mem_toColumns {e : String × Column} :
    e ∈ (toColumns floatText rows).entries ↔ e ∈ projected floatText rows := by
  constructor
  · intro inside
    rcases mem_foldl_insert inside with old | ⟨f, there, rfl⟩
    · cases old
    · exact there
  · intro inside
    exact mem_foldl_insert_new inside fun f there same => projected_unique there inside same

theorem get?_toColumns {name : String} {column : Column} (inside : (name, column) ∈ projected floatText rows) :
    (toColumns floatText rows).get? name = some column :=
  get?_eq_some.mpr (mem_toColumns.mpr inside)

theorem get?_envelope {name : String} {column : Column} (inside : (name, column) ∈ envelope rows) :
    (toColumns floatText rows).get? name = some column :=
  get?_toColumns (mem_append_left _ inside)

theorem get?_part {key suffix : String} (held : key ∈ keysOf rows)
    (known : suffix = typeSuffix ∨ suffix = originSuffix ∨
      ∃ typeName ∈ typesOf rows key, suffix = valueSuffix typeName) :
    (toColumns floatText rows).get? (columnName key suffix) = some (partColumn floatText rows key suffix) :=
  get?_toColumns (mem_append_right _
    (mem_flatMap.mpr ⟨key, held, mem_keyColumns.mpr ⟨suffix, known, rfl⟩⟩))

end

/-! Rows. -/

/-- A row under another workspace and project, with the properties of some keys. -/
def partly (workspaceId projectId : Id) (keys : List String) (row : EventRow) : EventRow :=
  { row with workspaceId, projectId, properties := row.properties.filter fun p => p.1 ∈ keys }

section
variable {floatText : UInt64 → String} {rows : List EventRow} {index : Nat} {row : EventRow}

theorem bareRow_toColumns (workspaceId projectId : Id) (found : rows[index]? = some row)
    (present : row.traceId ≠ some 0) : bareRow (toColumns floatText rows) workspaceId projectId index =
      partly workspaceId projectId [] row := by
  have ids : ∀ name (part : EventRow → Id), (name, .identifiers (rows.map part)) ∈ envelope rows →
      identifiers (toColumns floatText rows) name index = part row := by
    intro name part inside
    simp only [identifiers, get?_envelope inside, getElem?_map, found, Option.map_some,
      Option.getD_some]
  have words : ∀ name (part : EventRow → Option String),
      (name, .text (rows.map part)) ∈ envelope rows →
      word (toColumns floatText rows) name index = part row := by
    intro name part inside
    simp only [word, get?_envelope inside, getElem?_map, found, Option.map_some,
      Option.join_some]
  have moments : ∀ name (part : EventRow → Int), (name, .timestamps (rows.map part)) ∈ envelope rows →
      moment (toColumns floatText rows) name index = part row := by
    intro name part inside
    simp only [moment, get?_envelope inside, getElem?_map, found, Option.map_some,
      Option.getD_some]
  have trace : (if row.traceId.getD 0 ≠ 0 then some (row.traceId.getD 0) else none) = row.traceId := by
    cases held : row.traceId with
    | none => rfl
    | some id =>
      have other : id ≠ 0 := fun zero => present (by rw [held, zero])
      rw [Option.getD_some, if_pos other]
  rw [bareRow, ids "event_id" EventRow.eventId (by simp [envelope]),
    ids "batch_id" EventRow.batchId (by simp [envelope]),
    ids "source_id" EventRow.sourceId (by simp [envelope]),
    words "kind" (fun r => some r.kind) (by simp [envelope]),
    words "name" (fun r => some r.name) (by simp [envelope]),
    moments "occurred_at" EventRow.occurredAt (by simp [envelope]),
    moments "received_at" EventRow.receivedAt (by simp [envelope]),
    moments "committed_at" EventRow.committedAt (by simp [envelope]),
    words "session_id" EventRow.sessionId (by simp [envelope]),
    words "request_id" EventRow.requestId (by simp [envelope]),
    words "service_name" EventRow.serviceName (by simp [envelope]),
    words "release" EventRow.release (by simp [envelope]),
    ids "trace_id" (fun r => r.traceId.getD 0) (by simp [envelope])]
  simp only [trace, Option.getD_some, partly, not_mem_nil, decide_false, filter_false]

end

theorem textBytes_ofList (chars : List Char) : textBytes (.ofList chars) = chars.flatMap String.utf8EncodeChar := by
  simp [textBytes, List.utf8Encode]

theorem utf8Size_digitChar {n : Nat} (small : n < 16) : (Nat.digitChar n).utf8Size = 1 := by
  have all : ∀ n : Fin 16, (Nat.digitChar n.val).utf8Size = 1 := by decide
  exact all ⟨n, small⟩

theorem length_hex (bytes : Bytes) : (textBytes (hex bytes)).length = 2 * bytes.length := by
  rw [hex, textBytes_ofList]
  induction bytes with
  | nil => rfl
  | cons b bytes ih =>
    have bound := b.toNat_lt
    have high := @utf8Size_digitChar (b.toNat / 16) (by omega)
    have low := @utf8Size_digitChar (b.toNat % 16) (by omega)
    simp only [flatMap_cons, cons_append, nil_append, length_append,
      String.length_utf8EncodeChar, high, low, ih, length_cons]
    omega

theorem hexBytes_hex (bytes : Bytes) : hexBytes (hex bytes) = .ok (some bytes) := by
  rw [hexBytes, if_pos (by rw [length_hex]; omega), hex, String.toList_ofList]
  induction bytes with
  | nil => rfl
  | cons b bytes ih =>
    have bound := b.toNat_lt
    simp only [flatMap_cons, cons_append, nil_append, pairsOfHex,
      @utf8Size_digitChar (b.toNat / 16) (by omega), @utf8Size_digitChar (b.toNat % 16) (by omega),
      hexByte_digitChars, ih]
    rfl

section
variable {floatText : UInt64 → String} {rows : List EventRow} {index : Nat} {row : EventRow}
  {key origin : String} {value : PropertyValue}

theorem readValue_valueColumn (found : rows[index]? = some row) (held : propertyOf row key = some (value, origin)) :
    readValue (typeName value) (valueColumn floatText (valueSuffix (typeName value))
      (rows.map (valueUnder key (valueSuffix (typeName value))))) index = .ok (some value) := by
  have under : valueUnder key (valueSuffix (typeName value)) row = some value := by
    rw [valueUnder, held, Option.bind_some, if_pos rfl]
  cases value with
  | null => rfl
  | boolean v =>
    have under : valueUnder key ":b" row = some (.boolean v) := under
    cases v <;> simp [readValue, typeName, valueSuffix, valueColumn, found, under]
  | integer v =>
    have under : valueUnder key ":i" row = some (.integer v) := under
    simp [readValue, typeName, valueSuffix, valueColumn, found, under]
  | unsigned v =>
    have under : valueUnder key ":u" row = some (.unsigned v) := under
    simp [readValue, typeName, valueSuffix, valueColumn, found, under]
  | float v =>
    have under : valueUnder key ":f" row = some (.float v) := under
    simp [readValue, typeName, valueSuffix, valueColumn, found, under]
  | decimal v =>
    have under : valueUnder key ":s" row = some (.decimal v) := under
    simp [readValue, typeName, valueSuffix, valueColumn, found, under, PropertyValue.toDisplay]
  | text v =>
    have under : valueUnder key ":s" row = some (.text v) := under
    simp [readValue, typeName, valueSuffix, valueColumn, found, under, PropertyValue.toDisplay]
  | bytes v =>
    have under : valueUnder key ":s" row = some (.bytes v) := under
    simp [readValue, typeName, valueSuffix, valueColumn, found, under, PropertyValue.toDisplay,
      hexBytes_hex]

theorem propertyOf_eq_some : propertyOf row key = some (value, origin) → (key, value, origin) ∈ row.properties := by
  intro held
  obtain ⟨p, found, same⟩ := Option.map_eq_some_iff.mp held
  have named : p.1 = key := by simpa using find?_some found
  have whole : p = (key, value, origin) := Prod.ext named same
  exact whole ▸ mem_of_find?_eq_some found

theorem mem_keysOf (inside : row ∈ rows) (held : (key, value, origin) ∈ row.properties) : key ∈ keysOf rows :=
  mem_sortDedup.mpr (mem_flatMap.mpr ⟨row, inside, mem_map.mpr ⟨_, held, rfl⟩⟩)

theorem mem_typesOf (inside : row ∈ rows) (held : propertyOf row key = some (value, origin)) :
    typeName value ∈ typesOf rows key :=
  mem_sortDedup.mpr (mem_filterMap.mpr ⟨row, inside, by rw [held]; rfl⟩)

theorem propertyAt_toColumns (found : rows[index]? = some row) :
    propertyAt (toColumns floatText rows) key ((propertyOf row key).map fun p => typeName p.1) index =
      .ok (propertyOf row key) := by
  cases held : propertyOf row key with
  | none => rfl
  | some p =>
    obtain ⟨value, origin⟩ := p
    have inside : row ∈ rows := mem_of_getElem? found
    have known : key ∈ keysOf rows := mem_keysOf inside (propertyOf_eq_some held)
    have column := @get?_part floatText _ _ _ known
      (.inr (.inr ⟨typeName value, mem_typesOf inside held, rfl⟩))
    have origins := @get?_part floatText _ _ _ known (.inr (.inl rfl))
    rw [partColumn, if_neg (valueSuffix_ne _).1, if_neg (valueSuffix_ne _).2] at column
    rw [partColumn, if_neg (by decide), if_pos rfl] at origins
    have read := @readValue_valueColumn floatText _ _ _ _ _ _ found held
    have given : word (toColumns floatText rows) (columnName key originSuffix) index = some origin := by
      simp only [word, origins, getElem?_map, found, Option.map_some, held, Option.join_some]
    simp only [propertyAt, Option.map_some, column, read, Checked.ok_bind, given, Option.getD_some]

theorem insertEntry_filter (ascending : row.properties.Pairwise fun a b => a.1 < b.1)
    (keys : List String) {p : PropertyValue × String} (held : propertyOf row key = some p) :
    insertEntry key p (row.properties.filter fun q => q.1 ∈ keys) =
      row.properties.filter fun q => q.1 ∈ key :: keys := by
  let whole : OrderedMap String (PropertyValue × String) := ⟨row.properties, ascending⟩
  have inside : (key, p) ∈ whole.entries := propertyOf_eq_some held
  have same : (whole.filter fun k _ => k ∈ keys).insert key p =
      whole.filter fun k _ => k ∈ key :: keys := by
    refine ext_of_mem fun q => ?_
    simp only [mem_insert, OrderedMap.mem_filter, decide_eq_true_eq, mem_cons]
    constructor
    · rintro (rfl | ⟨⟨there, known⟩, -⟩)
      · exact ⟨inside, .inl rfl⟩
      · exact ⟨there, .inr known⟩
    · rintro ⟨there, known⟩
      by_cases own : q.1 = key
      · left
        have value : q.2 = p := eq_of_mem (own ▸ there : (key, q.2) ∈ whole.entries) inside
        exact Prod.ext own value
      · exact .inr ⟨⟨there, known.resolve_left own⟩, own⟩
  exact congrArg OrderedMap.entries same

theorem filter_absent (keys : List String) (held : propertyOf row key = none) :
    (row.properties.filter fun q => q.1 ∈ keys) = row.properties.filter fun q => q.1 ∈ key :: keys := by
  refine filter_congr fun q there => ?_
  have other : q.1 ≠ key := by
    have absent := find?_eq_none.mp (Option.map_eq_none_iff.mp held) q there
    simpa using absent
  simp [other]

end

section
variable {floatText : UInt64 → String} {rows : List EventRow} {workspaceId projectId : Id}
  {keys : List String} {key : String}

theorem modify_between {α : Type} (f : α → α) (before after : List α) (x : α) :
    (before ++ x :: after).modify before.length f = before ++ f x :: after := by
  induction before with
  | nil => rfl
  | cons y before ih => rw [cons_append, length_cons, modify_succ_cons, ih, cons_append]

theorem putProperty_append (before after : List EventRow) (row : EventRow)
    (ascending : row.properties.Pairwise fun a b => a.1 < b.1) :
    putProperty key (before ++ partly workspaceId projectId keys row :: after) before.length (propertyOf row key) =
      before ++ partly workspaceId projectId (key :: keys) row :: after := by
  cases held : propertyOf row key with
  | none =>
    rw [putProperty, partly, partly, filter_absent keys held]
  | some p =>
    rw [putProperty, modify_between, partly, partly, ← insertEntry_filter ascending keys held]

theorem putKey_toColumns (ascending : ∀ row ∈ rows, row.properties.Pairwise fun a b => a.1 < b.1)
    (before after : List EventRow) (whole : before ++ after = rows) : putKey (toColumns floatText rows) key
        (after.map fun row => (propertyOf row key).map fun p => typeName p.1) before.length
        (before.map (partly workspaceId projectId (key :: keys)) ++ after.map (partly workspaceId projectId keys)) =
      .ok (rows.map (partly workspaceId projectId (key :: keys))) := by
  induction after generalizing before with
  | nil =>
    rw [append_nil] at whole
    rw [← whole, map_nil, map_nil, append_nil]
    rfl
  | cons row after ih =>
    have found : rows[before.length]? = some row := by
      rw [← whole, getElem?_append_right (le_refl _), Nat.sub_self]
      rfl
    have put := @putProperty_append workspaceId projectId keys key
      (before.map (partly workspaceId projectId (key :: keys)))
      (after.map (partly workspaceId projectId keys)) row
      (ascending row (mem_of_getElem? found))
    rw [length_map] at put
    rw [map_cons, map_cons, putKey, propertyAt_toColumns found, Checked.ok_bind, put]
    have next := ih (before ++ [row]) (by rw [append_assoc]; exact whole)
    rwa [length_append, map_append, append_assoc] at next

def keysAmong (columns : List (String × Column)) : List String :=
  columns.filterMap fun column => typeKey column.1

theorem typeKey_projected {e : String × Column} (inside : e ∈ projected floatText rows) {key : String}
    (named : typeKey e.1 = some key) :
    e.2 = .text (rows.map fun row => (propertyOf row key).map fun p => typeName p.1) := by
  rcases mem_projected inside with plain | ⟨key', suffix, two, rfl⟩
  · have other := envelope_name plain
    rw [typeKey] at named
    dsimp only at named
    rw [if_neg other] at named
    cases named
  · by_cases kind : suffix = typeSuffix
    · rw [kind, typeKey_columnName] at named
      cases named
      simp only [partColumn, if_pos kind]
    · rw [typeKey_other two kind] at named
      cases named

theorem putKeys_toColumns (ascending : ∀ row ∈ rows, row.properties.Pairwise fun a b => a.1 < b.1)
    (rest : List (String × Column)) (inside : ∀ e ∈ rest, e ∈ projected floatText rows) :
    putKeys (toColumns floatText rows) rest (rows.map (partly workspaceId projectId keys)) =
      .ok (rows.map (partly workspaceId projectId ((keysAmong rest).reverse ++ keys))) := by
  induction rest generalizing keys with
  | nil => rfl
  | cons e rest ih =>
    obtain ⟨name, column⟩ := e
    have later := @ih
    have here := inside _ mem_cons_self
    cases named : typeKey name with
    | none =>
      have skip : putKeys (toColumns floatText rows) ((name, column) :: rest) =
          putKeys (toColumns floatText rows) rest := by
        funext out
        simp only [putKeys, named]
      have same : keysAmong ((name, column) :: rest) = keysAmong rest :=
        filterMap_cons_none named
      rw [skip, same]
      exact ih fun e there => inside e (mem_cons_of_mem _ there)
    | some key =>
      have types := typeKey_projected here named
      dsimp only at types
      subst types
      have put := @putKey_toColumns floatText rows workspaceId projectId keys key ascending [] rows rfl
      rw [map_nil, nil_append, length_nil] at put
      have more : keysAmong ((name, Column.text (rows.map fun row =>
          (propertyOf row key).map fun p => typeName p.1)) :: rest) = key :: keysAmong rest :=
        filterMap_cons_some named
      simp only [putKeys, named, put, Checked.ok_bind]
      rw [ih fun e there => inside e (mem_cons_of_mem _ there), more, reverse_cons,
        append_assoc]
      rfl

theorem partly_whole {row : EventRow} (all : ∀ p ∈ row.properties, p.1 ∈ keys) :
    partly workspaceId projectId keys row = { row with workspaceId, projectId } := by
  have same : (row.properties.filter fun p => p.1 ∈ keys) = row.properties :=
    filter_eq_self.mpr fun p there => decide_eq_true (all p there)
  rw [partly, same]

theorem toRows_toColumns (ascending : ∀ row ∈ rows, row.properties.Pairwise fun a b => a.1 < b.1)
    (traced : ∀ row ∈ rows, row.traceId ≠ some 0) (workspaceId projectId : Id) {backing : Nat}
    (room : rows.length ≤ 8 * backing) : toRows (toColumns floatText rows) rows.length workspaceId projectId backing =
      .ok (rows.map fun row => { row with workspaceId, projectId }) := by
  have bare : (List.range rows.length).map (bareRow (toColumns floatText rows) workspaceId projectId) =
      rows.map (partly workspaceId projectId []) := by
    refine ext_getElem (by simp) fun index inside inside' => ?_
    rw [length_map] at inside'
    have found : rows[index]? = some rows[index] := getElem?_eq_getElem inside'
    rw [getElem_map, getElem_map, getElem_range,
      bareRow_toColumns _ _ found (traced _ (mem_of_getElem? found))]
  have put := @putKeys_toColumns floatText rows workspaceId projectId [] ascending
    (toColumns floatText rows).entries fun e there => mem_toColumns.mp there
  have whole : ∀ row ∈ rows, partly workspaceId projectId
      ((keysAmong (toColumns floatText rows).entries).reverse ++ []) row =
        { row with workspaceId, projectId } := by
    intro row inside
    refine partly_whole fun p there => ?_
    have known : p.1 ∈ keysOf rows := mem_keysOf inside there
    have column : (columnName p.1 typeSuffix, partColumn floatText rows p.1 typeSuffix) ∈
        projected floatText rows :=
      mem_append_right _ (mem_flatMap.mpr
        ⟨p.1, known, mem_keyColumns.mpr ⟨typeSuffix, .inl rfl, rfl⟩⟩)
    rw [append_nil, mem_reverse]
    exact mem_filterMap.mpr ⟨_, mem_toColumns.mpr column, typeKey_columnName p.1⟩
  rw [toRows, Checked.allocate_of_le room, Checked.ok_bind, bare, put, map_congr_left whole]

/-- Rows come back from their columns as they were, under the workspace and the project they
are read for. -/
theorem rows_survive_projection (ascending : ∀ row ∈ rows, row.properties.Pairwise fun a b => a.1 < b.1)
    (traced : ∀ row ∈ rows, row.traceId ≠ some 0) (workspaceId projectId : Id) :
    toRows (toColumns floatText rows) rows.length workspaceId projectId rows.length =
      .ok (rows.map fun row => { row with workspaceId, projectId }) :=
  toRows_toColumns ascending traced workspaceId projectId (by omega)

end

def colonRow : EventRow :=
  { everyTypeRow with
    traceId := none
    properties := [("count", .text "three", "collector"), ("count:t", .decimal "1.50", "client"),
      ("p:count", .boolean true, "driver"), ("p:count:t:o", .null, "client")] }

theorem rows_survive_projection_of_colons :
    toRows (toColumns plainText [everyTypeRow, colonRow, { everyTypeRow with properties := [] }])
        3 8 9 3 =
      .ok [{ everyTypeRow with workspaceId := 8, projectId := 9 },
        { colonRow with workspaceId := 8, projectId := 9 },
        { everyTypeRow with workspaceId := 8, projectId := 9, properties := [] }] :=
  rows_survive_projection (by decide +kernel) (by decide +kernel) 8 9

end TallyOwl.SegmentFormat
