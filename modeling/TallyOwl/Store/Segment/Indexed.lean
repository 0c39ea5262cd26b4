import TallyOwl.Store.Segment.IndexRoundTrip

/-! What an index answers for the column it was built over. A filter keeps every key it was given, since
a bit that is set stays set under a mask that does not change; postings hold the rows of each key in
order; a search in sorted fingerprints ends at the first that is not below. -/
open List

namespace TallyOwl.SegmentFormat
open Lib Lib.Checked Format Locate

def holders (column : Column) (rows : Nat) (key : Bytes) : List Nat :=
  (List.range rows).filter fun row => indexKey column row = some key

theorem mem_holders {column : Column} {rows row : Nat} {key : Bytes} :
    row ∈ holders column rows key ↔ row < rows ∧ indexKey column row = some key := by
  simp [holders]

namespace BlockFilter

theorem bit_ne_zero {hash bit : UInt64} (inside : bit ∈ bits hash) : bit ≠ 0 := by
  obtain ⟨m, -, rfl⟩ := mem_map.mp inside
  intro zero
  have small : 2 ^ ((m &&& 63).toNat % 64) < 2 ^ 64 := Nat.pow_lt_pow_right (by omega) (Nat.mod_lt _ (by omega))
  have value := congrArg UInt64.toNat zero
  rw [UInt64.toNat_shiftLeft, UInt64.toNat_one, Nat.one_shiftLeft, Nat.mod_eq_of_lt small] at value
  exact absurd value (Nat.two_pow_pos _).ne'

theorem and_or_ne_zero {a b bit : UInt64} (set : a &&& bit ≠ 0) : (a ||| b) &&& bit ≠ 0 := by
  intro zero
  have both : (a &&& bit) ||| (b &&& bit) = 0 := by
    rw [← zero]
    exact UInt64.toBitVec_inj.mp (by simp [BitVec.and_or_distrib_right])
  exact set (UInt64.or_eq_zero_iff.mp both).1

theorem foldl_or_of_set {word bit : UInt64} (more : List UInt64) (set : word &&& bit ≠ 0) :
    more.foldl (· ||| ·) word &&& bit ≠ 0 := by
  induction more generalizing word with
  | nil => exact set
  | cons b more ih => exact ih (and_or_ne_zero set)

theorem foldl_or_of_mem {word bit : UInt64} {more : List UInt64} (inside : bit ∈ more) (filled : bit ≠ 0) :
    more.foldl (· ||| ·) word &&& bit ≠ 0 := by
  induction more generalizing word with
  | nil => cases inside
  | cons b more ih =>
    rcases mem_cons.mp inside with rfl | later
    · have set : (bit ||| word) &&& bit ≠ 0 := and_or_ne_zero (by rwa [UInt64.and_self])
      rw [UInt64.or_comm] at set
      exact foldl_or_of_set more set
    · exact ih later

def place (words : Nat) (hash : UInt64) : Nat := (hash >>> 32).toNat &&& (words - 1)

section
variable {checksum : Bytes → UInt64} {filter : BlockFilter} {column : Column}

theorem place_lt {words : Nat} (room : 0 < words) (hash : UInt64) : place words hash < words :=
  Nat.lt_of_le_of_lt Nat.and_le_right (by omega)

theorem wordOf_eq (room : 0 < filter.words.length) (hash : UInt64) :
    filter.wordOf hash = .ok (place filter.words.length hash) := by
  rw [wordOf, minus_of_le (by omega), ok_bind, place]

def wordAt (filter : BlockFilter) (hash : UInt64) : UInt64 :=
  (filter.words[place filter.words.length hash]?).getD 0

variable (room : 0 < filter.words.length)
include room

theorem item_wordAt (hash : UInt64) :
    (item filter.words (place filter.words.length hash) : Checked FormatError UInt64) = .ok (filter.wordAt hash) := by
  have inside := getElem?_eq_getElem (place_lt room hash)
  rw [item_of_lt inside, wordAt, inside, Option.getD_some]

theorem maybe_iff (value : Bytes) : filter.maybe checksum value = .ok true ↔
      ∀ bit ∈ bits (checksum value), filter.wordAt (checksum value) &&& bit ≠ 0 := by
  rw [maybe, wordOf_eq room, ok_bind, item_wordAt room, ok_bind]
  simp

theorem maybe_returns (value : Bytes) :
    ∃ answer, filter.maybe checksum value = .ok answer := by
  rw [maybe, wordOf_eq room, ok_bind, item_wordAt room, ok_bind]
  exact ⟨_, rfl⟩

theorem insert_spec (value : Bytes) :
    ∃ more, filter.insert checksum value = .ok more ∧ more.words.length = filter.words.length ∧
      more.maybe checksum value = .ok true ∧
        ∀ other, filter.maybe checksum other = .ok true → more.maybe checksum other = .ok true := by
  let spot := place filter.words.length (checksum value)
  let word := (bits (checksum value)).foldl (· ||| ·) (filter.wordAt (checksum value))
  let more : BlockFilter := ⟨filter.words.set spot word⟩
  have same : more.words.length = filter.words.length := length_set
  have inside : spot < filter.words.length := place_lt room _
  have wordAt_more (hash : UInt64) : more.wordAt hash =
      if place filter.words.length hash = spot then word else filter.wordAt hash := by
    rw [wordAt, same]
    show ((filter.words.set spot word)[_]?).getD 0 = _
    rw [getElem?_set]
    split
    · rename_i equal
      rw [if_pos equal.symm, Option.getD_some]
    · rename_i other
      rw [if_neg (Ne.symm other), wordAt]
  have filled : 0 < more.words.length := by omega
  refine ⟨more, ?_, same, ?_, ?_⟩
  · rw [insert, wordOf_eq room, ok_bind, item_wordAt room, ok_bind]
  · refine (maybe_iff filled value).mpr fun bit there => ?_
    rw [wordAt_more, if_pos rfl]
    exact foldl_or_of_mem there (bit_ne_zero there)
  · intro other held
    refine (maybe_iff filled other).mpr fun bit there => ?_
    have set := (maybe_iff room other).mp held bit there
    rw [wordAt_more]
    split
    · rename_i equal
      have same : filter.wordAt (checksum other) = filter.wordAt (checksum value) := by
        rw [wordAt, wordAt, equal]
      rw [same] at set
      exact foldl_or_of_set _ set
    · exact set

omit room

theorem words_new (rows : Nat) : 0 < (new rows).words.length := by
  rw [new, length_replicate, nextPowerOfTwo]
  exact Nat.two_pow_pos _

theorem fillFilter_spec (count row : Nat) (room : 0 < filter.words.length) :
    ∃ more, fillFilter checksum column count row filter = .ok more ∧ 0 < more.words.length ∧
      (∀ other, filter.maybe checksum other = .ok true → more.maybe checksum other = .ok true) ∧
        ∀ r key, row ≤ r → r < row + count → indexKey column r = some key → more.maybe checksum key = .ok true := by
  induction count generalizing row filter with
  | zero => exact ⟨filter, rfl, room, fun _ held => held, fun r _ low high => by omega⟩
  | succ count ih =>
    unfold fillFilter
    cases own : indexKey column row with
    | none =>
      obtain ⟨more, filled, left, kept, each⟩ := ih (row + 1) room
      refine ⟨more, filled, left, kept, fun r key low high held => ?_⟩
      rcases Nat.eq_or_lt_of_le low with rfl | past
      · rw [own] at held
        cases held
      · exact each r key past (by omega) held
    | some mine =>
      obtain ⟨next, put, same, here, before⟩ := @insert_spec checksum filter room mine
      obtain ⟨more, filled, left, kept, each⟩ := ih (row + 1) (show 0 < next.words.length by omega)
      refine ⟨more, ?_, left, fun other held => kept other (before other held), fun r key low high held => ?_⟩
      · dsimp only
        rw [put, ok_bind, filled]
      · rcases Nat.eq_or_lt_of_le low with rfl | past
        · rw [own] at held
          cases held
          exact kept _ here
        · exact each r key past (by omega) held

end

/-- The filters of the row groups, read with a row number that runs on from group to group, hold every
key of their rows. -/
theorem buildFilters_spec {checksum : Bytes → UInt64} {column : Column} (groups : List (List EventRow)) (row : Nat) :
    ∃ filters, buildFilters checksum column groups row = .ok filters ∧ (∀ filter ∈ filters, 0 < filter.words.length) ∧
        ∀ r key, row ≤ r → r < row + (groups.map List.length).sum → indexKey column r = some key →
          ∃ filter ∈ filters, filter.maybe checksum key = .ok true := by
  induction groups generalizing row with
  | nil => exact ⟨[], rfl, by simp, fun r _ low high => by simp at high; omega⟩
  | cons group groups ih =>
    obtain ⟨filter, filled, room, -, own⟩ :=
      @fillFilter_spec checksum (.new group.length) column group.length row (words_new _)
    obtain ⟨filters, built, more, each⟩ := ih (row + group.length)
    refine ⟨filter :: filters, ?_, forall_mem_cons.mpr ⟨room, more⟩, fun r key low high held => ?_⟩
    · rw [buildFilters, filled, ok_bind, built, ok_bind]
    · rw [map_cons, sum_cons] at high
      by_cases inside : r < row + group.length
      · exact ⟨filter, mem_cons_self, own r key low inside held⟩
      · obtain ⟨found, there, holds⟩ := each r key (by omega) (by omega) held
        exact ⟨found, mem_cons_of_mem _ there, holds⟩

end BlockFilter

theorem anyMaybe_of_mem {crates : Crates} {value : Bytes} {filters : List BlockFilter} {filter : BlockFilter}
    (room : ∀ f ∈ filters, 0 < f.words.length) (inside : filter ∈ filters)
    (holds : filter.maybe crates.checksum value = .ok true) : anyMaybe crates value filters = .ok true := by
  induction filters with
  | nil => cases inside
  | cons first filters ih =>
    obtain ⟨own, rest⟩ := forall_mem_cons.mp room
    obtain ⟨answer, asked⟩ := @BlockFilter.maybe_returns crates.checksum first own value
    rw [anyMaybe, asked, ok_bind]
    cases answer with
    | true => rfl
    | false =>
      rcases mem_cons.mp inside with rfl | later
      · rw [asked] at holds
        cases holds
      · exact ih rest later

/-! Postings. -/

namespace TermPostings
variable {postings : TermPostings} {column : Column}

theorem rows_of_mem (terms : postings.Pairwise fun a b => a.1 < b.1) {term : Bytes × List Nat}
    (inside : term ∈ postings) : postings.rows term.1 = some term.2 := by
  induction postings with
  | nil => cases inside
  | cons first postings ih =>
    obtain ⟨above, later⟩ := pairwise_cons.mp terms
    rcases mem_cons.mp inside with rfl | more
    · simp [rows]
    · have other : first.1 ≠ term.1 := fun same => List.lt_irrefl _ (same ▸ above term more)
      have rest := ih later more
      rw [rows] at rest ⊢
      rw [find?_cons_of_neg (by simpa using other), rest]

theorem rows_below {first : Bytes × List Nat} {key : Bytes}
    (above : ∀ term ∈ postings, first.1 < term.1) (less : key < first.1) : postings.rows key = none := by
  rw [rows, Option.map_eq_none_iff, find?_eq_none]
  intro term inside same
  have equal : term.1 = key := of_decide_eq_true same
  exact List.lt_asymm (above term inside) (equal ▸ less)

theorem rows_cons (first : Bytes × List Nat) (rest : TermPostings) (key : Bytes) :
    rows (first :: rest) key = if key = first.1 then some first.2 else rows rest key := by
  rw [rows, rows]
  split
  · rename_i same
    rw [find?_cons_of_pos (by simp [same]), Option.map_some]
  · rename_i other
    rw [find?_cons_of_neg (by simpa using Ne.symm other)]

theorem mem_add {value : Bytes} {row : Nat} {term : Bytes × List Nat} (inside : term ∈ add value row postings) :
    term.1 = value ∨ ∃ old ∈ postings, old.1 = term.1 := by
  induction postings with
  | nil => exact .inl (by simp [add] at inside; rw [inside])
  | cons first rest ih =>
    unfold add at inside
    split at inside
    · rename_i same
      rcases mem_cons.mp inside with rfl | more
      · exact .inl same.symm
      · exact .inr ⟨term, mem_cons_of_mem _ more, rfl⟩
    · split at inside
      · rcases mem_cons.mp inside with rfl | more
        · exact .inl rfl
        · exact .inr ⟨term, more, rfl⟩
      · rcases mem_cons.mp inside with rfl | more
        · exact .inr ⟨_, mem_cons_self, rfl⟩
        · exact (ih more).imp_right fun ⟨old, there, same⟩ => ⟨old, mem_cons_of_mem _ there, same⟩

theorem terms_add (terms : postings.Pairwise fun a b => a.1 < b.1) (value : Bytes) (row : Nat) :
    (add value row postings).Pairwise fun a b => a.1 < b.1 := by
  induction postings with
  | nil => simp [add]
  | cons first rest ih =>
    obtain ⟨above, later⟩ := pairwise_cons.mp terms
    unfold add
    split
    · exact pairwise_cons.mpr ⟨above, later⟩
    · rename_i other
      split
      · rename_i less
        refine pairwise_cons.mpr ⟨fun term inside => ?_, terms⟩
        rcases mem_cons.mp inside with rfl | more
        · exact less
        · exact List.lt_trans less (above term more)
      · rename_i notLess
        refine pairwise_cons.mpr ⟨fun term inside => ?_, ih later⟩
        rcases mem_add inside with same | ⟨old, there, same⟩
        · rw [same]
          exact (List.le_iff_lt_or_eq.mp (List.not_lt.mp notLess)).resolve_right (Ne.symm other)
        · exact same ▸ above old there

theorem rows_add (terms : postings.Pairwise fun a b => a.1 < b.1) (value : Bytes) (row : Nat) (key : Bytes) :
    rows (add value row postings) key =
      if key = value then some ((rows postings value).getD [] ++ [row]) else rows postings key := by
  induction postings with
  | nil =>
    rw [add, rows_cons]
    rfl
  | cons first rest ih =>
    obtain ⟨above, later⟩ := pairwise_cons.mp terms
    unfold add
    split
    · rename_i same
      rw [rows_cons, rows_cons, rows_cons, if_pos same, ← same]
      split <;> rfl
    · rename_i other
      split
      · rename_i less
        have fresh : rows (first :: rest) value = none := by
          rw [rows_cons, if_neg other]
          exact rows_below above less
        rw [rows_cons, fresh]
        rfl
      · rw [rows_cons, ih later, rows_cons, rows_cons, if_neg other]
        by_cases same : key = first.1
        · have apart : ¬ key = value := fun equal => other (equal.symm.trans same)
          rw [if_pos same, if_neg apart, if_pos same]
        · rw [if_neg same, if_neg same]

/-- Postings over the first rows of a column: each key with the rows that hold it. -/
structure Posts (column : Column) (rows : Nat) (postings : TermPostings) : Prop where
  terms : postings.Pairwise fun a b => a.1 < b.1
  rows : ∀ key, postings.rows key =
    if holders column rows key = [] then none else some (holders column rows key)

theorem holders_succ (rows : Nat) (key : Bytes) : holders column (rows + 1) key =
    if indexKey column rows = some key then holders column rows key ++ [rows] else holders column rows key := by
  rw [holders, range_succ, filter_append, filter_cons, filter_nil]
  split
  · rename_i held
    rw [if_pos (of_decide_eq_true held)]
    rfl
  · rename_i held
    rw [if_neg (by simpa using held), append_nil]
    rfl

theorem posts_addPosting {rows : Nat} (posts : Posts column rows postings) (few : rows < 2 ^ 32) :
    Posts column (rows + 1) (addPosting column postings rows) := by
  unfold addPosting
  cases own : indexKey column rows with
  | none =>
    refine ⟨posts.terms, fun key => ?_⟩
    have same : holders column (rows + 1) key = holders column rows key := by
      rw [holders_succ, own, if_neg (by simp)]
    rw [same, posts.rows]
  | some mine =>
    refine ⟨terms_add posts.terms _ _, fun key => ?_⟩
    rw [Nat.mod_eq_of_lt few, rows_add posts.terms, posts.rows, posts.rows]
    by_cases same : key = mine
    · have next : holders column (rows + 1) key = holders column rows key ++ [rows] := by
        rw [holders_succ, own, if_pos (by rw [same])]
      have filled : ¬ holders column rows key ++ [rows] = [] := by simp
      rw [if_pos same, next, if_neg filled, ← same]
      split
      · rename_i fresh
        rw [fresh]
        rfl
      · rfl
    · have next : holders column (rows + 1) key = holders column rows key := by
        rw [holders_succ, own, if_neg (by simpa using Ne.symm same)]
      rw [if_neg same, next]

theorem posts_range (rows : Nat) (few : rows ≤ 2 ^ 32) :
    Posts column rows ((List.range rows).foldl (addPosting column) []) := by
  induction rows with
  | zero => exact ⟨.nil, fun key => by simp [TermPostings.rows, holders]⟩
  | succ rows ih =>
    rw [range_succ, foldl_append, foldl_cons, foldl_nil]
    exact posts_addPosting (ih (by omega)) (by omega)

theorem Posts.inOrder {rows : Nat} (posts : Posts column rows postings) (few : rows ≤ 2 ^ 32) : postings.InOrder := by
  have own : ∀ term ∈ postings, term.2 = holders column rows term.1 := by
    intro term inside
    have found := rows_of_mem posts.terms inside
    rw [posts.rows] at found
    split at found
    · cases found
    · exact (Option.some.inj found).symm
  refine ⟨posts.terms, fun term inside => ?_, fun term inside row there => ?_⟩
  · rw [own term inside]
    exact pairwise_lt_range.filter _
  · rw [own term inside] at there
    exact Nat.lt_of_lt_of_le (mem_holders.mp there).1 few

end TermPostings

/-! Fingerprints. -/

namespace UniqueLookup
variable {entries : UniqueLookup} {target : Nat}

/-- A search that keeps every entry before `first` below the target, and none from `first + size` on,
ends where the entries stop to be below it. -/
theorem partitionPoint_spec (sorted : entries.Pairwise fun a b => a.1 ≤ b.1) {fuel first size : Nat}
    (enough : size ≤ fuel) (inside : first + size ≤ entries.length) (low : ∀ e ∈ entries.take first, e.1 < target)
    (high : ∀ e ∈ entries.drop (first + size), target ≤ e.1) :
    (∀ e ∈ entries.take (partitionPoint entries target fuel first size), e.1 < target) ∧
      ∀ e ∈ entries.drop (partitionPoint entries target fuel first size), target ≤ e.1 := by
  induction fuel generalizing first size with
  | zero =>
    obtain rfl : size = 0 := by omega
    exact ⟨low, high⟩
  | succ fuel ih =>
    unfold partitionPoint
    split
    · rename_i none
      subst none
      exact ⟨low, high⟩
    · rename_i some
      have middle : first + size / 2 < entries.length := by omega
      obtain ⟨e, found⟩ : ∃ e, entries[first + size / 2]? = .some e :=
        ⟨_, getElem?_eq_getElem middle⟩
      have parts : entries = entries.take (first + size / 2) ++ e :: entries.drop (first + size / 2 + 1) := by
        rw [← (List.getElem?_eq_some_iff.mp found).2, ← drop_eq_getElem_cons middle, take_append_drop]
      have order := sorted
      rw [parts] at order
      obtain ⟨-, behind, across⟩ := pairwise_append.mp order
      dsimp only
      rw [found, Option.map_some, Option.getD_some]
      split
      · rename_i below
        have taken : entries.take (first + size / 2 + 1) = entries.take (first + size / 2) ++ [e] := by
          rw [take_add_one, found, Option.toList_some]
        refine ih (by omega) (by omega) ?_ ?_
        · intro d there
          rw [taken] at there
          rcases mem_append.mp there with before | own
          · exact Nat.lt_of_le_of_lt (across d before e mem_cons_self) below
          · obtain rfl := mem_singleton.mp own
            exact below
        · rwa [show first + size / 2 + 1 + (size - size / 2 - 1) = first + size by omega]
      · rename_i notBelow
        have rest : entries.drop (first + size / 2) = e :: entries.drop (first + size / 2 + 1) := by
          rw [← (List.getElem?_eq_some_iff.mp found).2, ← drop_eq_getElem_cons middle]
        refine ih (by omega) (by omega) low fun d there => ?_
        rw [rest] at there
        rcases mem_cons.mp there with rfl | later
        · exact Nat.le_of_not_lt notBelow
        · exact (Nat.le_of_not_lt notBelow).trans ((pairwise_cons.mp behind).1 d later)

theorem candidates_spec (sorted : entries.Pairwise fun a b => a.1 ≤ b.1) (target : Nat) :
    ∃ found, entries.candidates target = .ok found ∧ ∀ row, (target, row) ∈ entries → row ∈ found := by
  let start := partitionPoint entries target entries.length 0 entries.length
  obtain ⟨low, high⟩ := @partitionPoint_spec entries target sorted entries.length 0 entries.length
    (le_refl _) (by omega) (by simp) (by simp)
  have inside : start ≤ entries.length := partitionPoint_le entries target (by omega)
  have rest : (entries.take entries.length).drop start = entries.drop start := by rw [take_length]
  have read : (part entries start entries.length : Checked FormatError UniqueLookup) = .ok (entries.drop start) := by
    rw [part_of_le inside (le_refl _), rest]
  refine ⟨_, by rw [candidates, read, ok_bind], fun row there => ?_⟩
  have later : (target, row) ∈ entries.drop start := by
    rw [← take_append_drop start entries] at there
    rcases mem_append.mp there with before | behind
    · exact absurd (low _ before) (Nat.lt_irrefl _)
    · exact behind
  have reached : (target, row) ∈ stretch Prod.fst target (entries.drop start) :=
    (mem_stretch (sorted.drop)).mpr ⟨later, rfl⟩
  rw [stretch, dropWhile_eq_self_of_le high] at reached
  exact mem_map.mpr ⟨_, reached, rfl⟩

end UniqueLookup

section
variable {checksum : Bytes → UInt64} {column : Column}

theorem sorted_buildLookup : (buildLookup checksum column).Pairwise fun a b => a.1 ≤ b.1 := by
  have total : Std.Total fingerprintLe := ⟨fun a b => by unfold fingerprintLe; omega⟩
  have trans : IsTrans (Nat × Nat) fingerprintLe := ⟨fun a b c => by unfold fingerprintLe; omega⟩
  refine (pairwise_insertionSort fingerprintLe _).imp fun le => ?_
  unfold fingerprintLe at le
  omega

theorem mem_buildLookup {e : Nat × Nat} : e ∈ buildLookup checksum column ↔
    ∃ row < column.length, ∃ key, indexKey column row = some key ∧ ((checksum key).toNat, row % 2 ^ 32) = e := by
  rw [buildLookup, mem_insertionSort, mem_filterMap]
  simp only [mem_range, Option.map_eq_some_iff]

theorem fits_buildLookup : UniqueLookup.Fits (buildLookup checksum column) := by
  intro e inside
  obtain ⟨row, -, key, -, rfl⟩ := mem_buildLookup.mp inside
  exact ⟨(checksum key).toNat_lt, Nat.mod_lt _ (by norm_num)⟩

end

/-- What an index has to say of a column: every key of a row may be held; postings give the rows of the
key in order; a lookup gives them among its candidates. -/
structure Answers (crates : Crates) (column : Column) (index : ColumnIndex) : Prop where
  held : ∀ row key, indexKey column row = some key → index.mayHold crates key = .ok true
  posted : ∀ postings, index = .termPostings postings → ∀ row key, indexKey column row = some key →
    postings.rows key = some (holders column column.length key)
  candidates : ∀ entries, index = .uniqueLookup entries → ∀ key, ∃ found,
    entries.candidates (crates.checksum key).toNat = .ok found ∧
      ∀ row, indexKey column row = some key → row ∈ found

theorem lt_of_indexKey {column : Column} {row : Nat} {key : Bytes} (held : indexKey column row = some key) :
    row < column.length := by
  by_contra past
  cases column <;> simp [indexKey, Column.length] at held past <;> simp [getElem?_eq_none past] at held

theorem buildIndex_answers (crates : Crates) (column : Column) (layout : IndexLayout)
    (groups : List (List EventRow)) (whole : (groups.map List.length).sum = column.length)
    (few : column.length ≤ 2 ^ 32) :
    ∃ index, buildIndex crates.checksum column layout groups = .ok index ∧ index.layout = layout ∧
      index.Fits ∧ Answers crates column index := by
  cases layout with
  | blockFilter =>
    obtain ⟨filters, built, room, each⟩ := @BlockFilter.buildFilters_spec crates.checksum column groups 0
    refine ⟨.blockFilter filters, by rw [buildIndex, built, ok_bind], rfl, trivial, ?_, ?_, ?_⟩
    · intro row key held
      obtain ⟨filter, inside, holds⟩ := each row key (Nat.zero_le _)
        (by rw [whole, Nat.zero_add]; exact lt_of_indexKey held) held
      exact anyMaybe_of_mem room inside holds
    · rintro postings ⟨⟩
    · rintro entries ⟨⟩
  | termPostings =>
    have posts : TermPostings.Posts column column.length (buildPostings column) :=
      TermPostings.posts_range column.length few
    have rows (row : Nat) (key : Bytes) (held : indexKey column row = some key) :
        (buildPostings column).rows key = some (holders column column.length key) := by
      have inside := mem_holders.mpr ⟨lt_of_indexKey held, held⟩
      rw [posts.rows, if_neg (ne_nil_of_mem inside)]
    refine ⟨.termPostings (buildPostings column), rfl, rfl, posts.inOrder few, ?_, ?_, ?_⟩
    · intro row key held
      simp [ColumnIndex.mayHold, rows row key held]
    · rintro postings ⟨⟩ row key held
      exact rows row key held
    · rintro entries ⟨⟩
  | uniqueLookup =>
    have candidates (key : Bytes) : ∃ found,
        (buildLookup crates.checksum column).candidates (crates.checksum key).toNat = .ok found ∧
          ∀ row, indexKey column row = some key → row ∈ found := by
      obtain ⟨found, read, each⟩ :=
        UniqueLookup.candidates_spec (@sorted_buildLookup crates.checksum column) (crates.checksum key).toNat
      refine ⟨found, read, fun row held => each row (mem_buildLookup.mpr ?_)⟩
      have low := lt_of_indexKey held
      exact ⟨row, low, key, held, by rw [Nat.mod_eq_of_lt (Nat.lt_of_lt_of_le low few)]⟩
    refine ⟨.uniqueLookup (buildLookup crates.checksum column), rfl, rfl, fits_buildLookup, ?_, ?_, ?_⟩
    · intro row key held
      obtain ⟨found, read, each⟩ := candidates key
      rw [ColumnIndex.mayHold, read, ok_bind]
      simp [ne_nil_of_mem (each row held)]
    · rintro postings ⟨⟩
    · rintro entries ⟨⟩ key
      exact candidates key

end TallyOwl.SegmentFormat
