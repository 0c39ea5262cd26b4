import TallyOwl.Store.Segment.RoundTrip

/-! The pieces a writer splits a column into (`split_into_pages` in `segment/page.rs`), and
which of them its reader takes back. The writer measures a page as it is compressed; the
reader refuses one for the bytes it expands to, and nothing holds the second under its bound
where the first is under the target. -/
open List

namespace TallyOwl.SegmentFormat
open Lib Lib.Checked Format Locate

namespace Column

@[simp] theorem isRaw_slice (start last : Nat) (column : Column) : (column.slice start last).isRaw = column.isRaw := by
  cases column <;> rfl

theorem length_slice (column : Column) {start last : Nat} (inside : last ≤ column.length) :
    (column.slice start last).length = last - start := by
  cases column <;> simp only [Column.length] at inside <;> simp [slice, Column.length, Nat.min_eq_left inside]

@[simp] theorem slice_whole (column : Column) : column.slice 0 column.length = column := by
  cases column <;> simp [slice, Column.length]

theorem Typed.slice {column : Column} (typed : column.Typed) (start last : Nat) : (column.slice start last).Typed := by
  have part {α : Type} {values : List α} {p : α → Prop} (all : ∀ v ∈ values, p v) :
      ∀ v ∈ (values.take last).drop start, p v :=
    fun v inside => all v (mem_of_mem_take (mem_of_mem_drop inside))
  cases column with
  | timestamps values | integers values | unsigned values => exact part typed
  | floats values | booleans values | identifiers values | text values | bytes values => trivial

@[simp] theorem encodeValues_asRead (column : Column) : encodeValues column.asRead = encodeValues column := by
  cases column <;> rfl

@[simp] theorem isRaw_asRead (column : Column) : column.asRead.isRaw = column.isRaw := by
  cases column <;> rfl

end Column

theorem append_slice (column : Column) {start last : Nat} (order : start ≤ last) :
    append (column.slice 0 start) (column.slice start last) = .ok (column.slice 0 last) := by
  have join {α : Type} (values : List α) :
      (values.take start).drop 0 ++ (values.take last).drop start = (values.take last).drop 0 := by
    have first : values.take start = (values.take last).take start := by
      rw [take_take, Nat.min_eq_left order]
    rw [drop_zero, drop_zero, first, take_append_drop]
  cases column <;> simp only [Column.slice, append, join]

def joinAll : Option Column → List Column → Except FormatError (Option Column)
  | held, [] => .ok held
  | held, piece :: pieces => do
      let column ← joined held piece
      joinAll (some column) pieces

section
variable (crates : Crates) (column : Column) (target : Nat)

def Closes (start rows : Nat) : Prop :=
  (writePage crates (column.slice start (start + rows))).length ≤ target ∨ rows ≤ 1

instance (start rows : Nat) : Decidable (Closes crates column target start rows) :=
  inferInstanceAs (Decidable (_ ∨ _))

/-- The stretches of rows the loop measures: so many rows at first, a quarter fewer where
they measure over the target, and the next rows where they close a page. -/
inductive Tried (each : Nat) : (start rows : Nat) → Prop
  | first : Tried each 0 (min each column.length)
  | fewer {start rows : Nat} : Tried each start rows → ¬ Closes crates column target start rows →
      Tried each start (max (rows * 3 / 4) 1)
  | next {start rows : Nat} : Tried each start rows → Closes crates column target start rows →
      start + rows < column.length → Tried each (start + rows) (min each (column.length - (start + rows)))

def rowsEachPage : Nat := max (crates.rowsUnder target (writePage crates column).length column.length) 1

variable {crates column target}

variable {start rows : Nat}

theorem shrink_closed (closes : Closes crates column target start rows) (fuel : Nat) :
    shrink crates column target start fuel rows = rows := by
  cases fuel with
  | zero => rfl
  | succ fuel => exact if_pos closes

theorem shrink_open (more : ¬ Closes crates column target start rows) (fuel : Nat) :
    shrink crates column target start (fuel + 1) rows =
      shrink crates column target start fuel (max (rows * 3 / 4) 1) := if_neg more

theorem fewer_lt (more : ¬ Closes crates column target start rows) : max (rows * 3 / 4) 1 < rows := by
  have many : ¬ rows ≤ 1 := fun few => more (.inr few)
  omega

theorem shrink_enough (fuel fuel' : Nat) (enough : rows ≤ fuel) (enough' : rows ≤ fuel') :
    shrink crates column target start fuel rows = shrink crates column target start fuel' rows := by
  induction fuel generalizing fuel' rows with
  | zero =>
    have none : Closes crates column target start rows := .inr (by omega)
    rw [shrink_closed none, shrink_closed none]
  | succ fuel ih =>
    by_cases closes : Closes crates column target start rows
    · rw [shrink_closed closes, shrink_closed closes]
    · have less := fewer_lt closes
      obtain ⟨fewer, rfl⟩ := Nat.exists_eq_succ_of_ne_zero (show fuel' ≠ 0 by omega)
      rw [shrink_open closes, shrink_open closes, ih fewer (by omega) (by omega)]

theorem shrink_spec {each start rows fuel : Nat} (enough : rows ≤ fuel) (positive : 0 < rows)
    (tried : Tried crates column target each start rows) :
    let closed := shrink crates column target start fuel rows
    0 < closed ∧ closed ≤ rows ∧ Closes crates column target start closed ∧
      Tried crates column target each start closed := by
  induction fuel generalizing rows with
  | zero => omega
  | succ fuel ih =>
    by_cases closes : Closes crates column target start rows
    · rw [shrink_closed closes]
      exact ⟨positive, le_refl _, closes, tried⟩
    · have less := fewer_lt closes
      rw [shrink_open closes]
      obtain ⟨some, most, rest⟩ := ih (by omega) (by omega) (tried.fewer closes)
      exact ⟨some, most.trans less.le, rest⟩

def closedRows (crates : Crates) (column : Column) (target each start : Nat) : Nat :=
  shrink crates column target start (min each (column.length - start)) (min each (column.length - start))

theorem piecesFrom_step {start : Nat} (below : start < column.length) (each fuel : Nat) :
    piecesFrom crates column target each (fuel + 1) start =
      column.slice start (start + closedRows crates column target each start) ::
        piecesFrom crates column target each fuel (start + closedRows crates column target each start) := by
  rw [piecesFrom, if_pos below]
  rfl

theorem piecesFrom_end {start : Nat} (past : column.length ≤ start) (each fuel : Nat) :
    piecesFrom crates column target each fuel start = [] := by
  cases fuel with
  | zero => rfl
  | succ fuel => exact if_neg (Nat.not_lt.mpr past)

section
variable {each start : Nat} (positive : 0 < each) (below : start < column.length)
include positive below

theorem closedRows_pos : 0 < closedRows crates column target each start := by
  have least : ∀ fuel rows, 0 < rows → 0 < shrink crates column target start fuel rows := by
    intro fuel
    induction fuel with
    | zero => exact fun rows some => some
    | succ fuel ih =>
      intro rows some
      by_cases closes : Closes crates column target start rows
      · rwa [shrink_closed closes]
      · rw [shrink_open closes]
        exact ih _ (by omega)
  exact least _ _ (by omega)

theorem closedRows_spec (tried : Tried crates column target each start (min each (column.length - start))) :
    let rows := closedRows crates column target each start
    0 < rows ∧ start + rows ≤ column.length ∧ Closes crates column target start rows ∧
      Tried crates column target each start rows := by
  obtain ⟨some, most, closes, reached⟩ := shrink_spec (le_refl _) (by omega) tried
  have inside := most.trans (Nat.min_le_right each (column.length - start))
  refine ⟨some, ?_, closes, reached⟩
  change start + shrink crates column target start _ _ ≤ column.length
  omega

end

variable {each : Nat}

theorem piecesFrom_enough (positive : 0 < each) (fuel fuel' start : Nat)
    (enough : column.length - start ≤ fuel) (enough' : column.length - start ≤ fuel') :
    piecesFrom crates column target each fuel start = piecesFrom crates column target each fuel' start := by
  induction fuel generalizing fuel' start with
  | zero => rw [piecesFrom_end (by omega), piecesFrom_end (by omega)]
  | succ fuel ih =>
    by_cases below : start < column.length
    · have some : 0 < closedRows crates column target each start := closedRows_pos positive below
      obtain ⟨fewer, rfl⟩ := Nat.exists_eq_succ_of_ne_zero (show fuel' ≠ 0 by omega)
      rw [piecesFrom_step below, piecesFrom_step below, ih fewer _ (by omega) (by omega)]
    · rw [piecesFrom_end (by omega), piecesFrom_end (by omega)]

theorem piecesFrom_spec {each fuel start : Nat} (positive : 0 < each)
    (tried : start < column.length → Tried crates column target each start (min each (column.length - start)))
    {piece : Column} (inside : piece ∈ piecesFrom crates column target each fuel start) :
    ∃ first rows, piece = column.slice first (first + rows) ∧ 0 < rows ∧ first + rows ≤ column.length ∧
      Closes crates column target first rows ∧ Tried crates column target each first rows := by
  induction fuel generalizing start with
  | zero => cases inside
  | succ fuel ih =>
    by_cases below : start < column.length
    · obtain ⟨some, whole, closes, reached⟩ := closedRows_spec positive below (tried below)
      rw [piecesFrom_step below, mem_cons] at inside
      rcases inside with rfl | inside
      · exact ⟨start, _, rfl, some, whole, closes, reached⟩
      · exact ih (fun more => reached.next closes more) inside
    · rw [piecesFrom_end (by omega)] at inside
      cases inside

theorem joinAll_piecesFrom (positive : 0 < each) {fuel start : Nat}
    (enough : column.length - start ≤ fuel) (inside : start ≤ column.length)
    (tried : start < column.length → Tried crates column target each start (min each (column.length - start))) :
    joinAll (some (column.slice 0 start)) (piecesFrom crates column target each fuel start) = .ok (some column) := by
  induction fuel generalizing start with
  | zero =>
    obtain rfl : start = column.length := by omega
    rw [piecesFrom_end (le_refl _), joinAll, Column.slice_whole]
  | succ fuel ih =>
    by_cases below : start < column.length
    · obtain ⟨some, whole, closes, reached⟩ := closedRows_spec positive below (tried below)
      rw [piecesFrom_step below, joinAll, joined, append_slice column (Nat.le_add_right _ _)]
      exact ih (by omega) whole fun more => reached.next closes more
    · obtain rfl : start = column.length := by omega
      rw [piecesFrom_end (le_refl _), joinAll, Column.slice_whole]

theorem tried_spec (positive : 0 < each) (filled : 0 < column.length)
    (tried : Tried crates column target each start rows) : (0 < rows ∧ start + rows ≤ column.length) ∧
      closedRows crates column target each start = shrink crates column target start rows rows ∧
      ∀ piece ∈ piecesFrom crates column target each column.length start,
        piece ∈ piecesFrom crates column target each column.length 0 := by
  induction tried with
  | first => exact ⟨by omega, rfl, fun piece inside => inside⟩
  | @fewer start rows tried more ih =>
    obtain ⟨bounds, same, inside⟩ := ih
    have less := fewer_lt more
    obtain ⟨fewer, rfl⟩ := Nat.exists_eq_succ_of_ne_zero (show rows ≠ 0 by omega)
    refine ⟨by omega, ?_, inside⟩
    rw [same, shrink_open more, shrink_enough fewer _ (by omega) (le_refl _)]
  | @next start rows tried closes more ih =>
    obtain ⟨bounds, same, inside⟩ := ih
    rw [shrink_closed closes] at same
    refine ⟨by omega, rfl, fun piece held => inside piece ?_⟩
    obtain ⟨fewer, length⟩ := Nat.exists_eq_succ_of_ne_zero (show column.length ≠ 0 by omega)
    rw [length, piecesFrom_step (by omega), same]
    refine mem_cons_of_mem _ ?_
    rwa [piecesFrom_enough positive fewer column.length _ (by omega) (by omega)]

theorem mem_piecesFrom_of_tried (positive : 0 < each) (filled : 0 < column.length)
    (tried : Tried crates column target each start rows) (closes : Closes crates column target start rows) :
    column.slice start (start + rows) ∈ piecesFrom crates column target each column.length 0 := by
  obtain ⟨bounds, same, inside⟩ := tried_spec positive filled tried
  rw [shrink_closed closes] at same
  obtain ⟨fewer, length⟩ := Nat.exists_eq_succ_of_ne_zero (show column.length ≠ 0 by omega)
  refine inside _ ?_
  rw [length, piecesFrom_step (by omega), same]
  exact mem_cons_self

/-- What the pieces of a column are to be: both loops end, whatever bound on their rounds is
no less than the rows, and each piece is a page that its reader takes back. -/
structure PagesReadBack (crates : Crates) (column : Column) (target : Nat) : Prop where
  pieces_end : ∀ each, 0 < each → ∀ fuel, column.length ≤ fuel →
    piecesFrom crates column target each fuel 0 = piecesFrom crates column target each column.length 0
  piece_ends : ∀ start rows fuel, rows ≤ fuel →
    shrink crates column target start fuel rows = shrink crates column target start rows rows
  nonempty : ∀ piece ∈ splitIntoPages crates column target, 0 < piece.length
  whole : joinAll none (splitIntoPages crates column target) = .ok (some column)
  measured : ∀ piece ∈ splitIntoPages crates column target,
    (writePage crates piece).length ≤ target ∨ piece.length = 1
  reads_back : ∀ piece ∈ splitIntoPages crates column target, ∀ before after : Bytes,
    before.length < 2 ^ 63 → ∀ verify,
      readPage crates (before ++ (writePage crates piece ++ after)) before.length verify = .ok piece.asRead
  small : ∀ piece ∈ splitIntoPages crates column target,
    (encodeValues piece).length ≤ maxUncompressedPageBytes

/-- No stretch that closes a page takes more bytes than any page can hold: not the column
where it measures under the target, nor, where it does not, a stretch the loop leaves. -/
def ClosesSmall (crates : Crates) (column : Column) (target : Nat) : Prop :=
  if (writePage crates column).length ≤ target then (encodeValues column).length ≤ maxUncompressedPageBytes
  else ∀ start rows, Tried crates column target (rowsEachPage crates column target) start rows →
    Closes crates column target start rows →
    (encodeValues (column.slice start (start + rows))).length ≤ maxUncompressedPageBytes

theorem rowsEachPage_pos : 0 < rowsEachPage crates column target := Nat.lt_of_lt_of_le one_pos (le_max_right _ _)

variable (filled : 0 < column.length)
include filled

theorem splitIntoPages_whole (fits : (writePage crates column).length ≤ target) :
    splitIntoPages crates column target = [column] := by
  rw [splitIntoPages, if_neg filled.ne']
  exact if_pos fits

theorem splitIntoPages_pieces (wide : ¬ (writePage crates column).length ≤ target) :
    splitIntoPages crates column target =
      piecesFrom crates column target (rowsEachPage crates column target) column.length 0 := by
  rw [splitIntoPages, if_neg filled.ne']
  exact if_neg wide

theorem splitIntoPages_spec {piece : Column}
    (inside : piece ∈ splitIntoPages crates column target) :
    0 < piece.length ∧ ((writePage crates piece).length ≤ target ∨ piece.length = 1) ∧
      piece.isRaw = column.isRaw ∧ (column.Typed → piece.Typed) ∧
      (ClosesSmall crates column target → (encodeValues piece).length ≤ maxUncompressedPageBytes) := by
  by_cases fits : (writePage crates column).length ≤ target
  · rw [splitIntoPages_whole filled fits, mem_singleton] at inside
    subst inside
    exact ⟨filled, .inl fits, rfl, id, fun small => by rwa [ClosesSmall, if_pos fits] at small⟩
  · rw [splitIntoPages_pieces filled fits] at inside
    obtain ⟨start, rows, rfl, positive, within, closes, tried⟩ :=
      piecesFrom_spec rowsEachPage_pos (fun _ => .first) inside
    have size : (column.slice start (start + rows)).length = rows := by
      rw [Column.length_slice column within, Nat.add_sub_cancel_left]
    refine ⟨by rwa [size], closes.imp_right fun few => by omega, Column.isRaw_slice _ _ _,
      fun typed => typed.slice _ _, fun small => ?_⟩
    rw [ClosesSmall, if_neg fits] at small
    exact small start rows tried closes

theorem joinAll_splitIntoPages :
    joinAll none (splitIntoPages crates column target) = .ok (some column) := by
  by_cases fits : (writePage crates column).length ≤ target
  · rw [splitIntoPages_whole filled fits]
    rfl
  · have positive : 0 < rowsEachPage crates column target := rowsEachPage_pos
    obtain ⟨_, within, closes, reached⟩ := closedRows_spec positive filled Tried.first
    obtain ⟨fewer, length⟩ := Nat.exists_eq_succ_of_ne_zero filled.ne'
    rw [splitIntoPages_pieces filled fits]
    conv_lhs => rw [length]
    rw [piecesFrom_step filled, joinAll, joined]
    exact joinAll_piecesFrom positive (by omega) within fun more => reached.next closes more

theorem closesSmall_of_pieces (small : ∀ piece ∈ splitIntoPages crates column target,
      (encodeValues piece).length ≤ maxUncompressedPageBytes) : ClosesSmall crates column target := by
  unfold ClosesSmall
  split
  · rename_i fits
    rw [splitIntoPages_whole filled fits] at small
    exact small column mem_cons_self
  · rename_i wide
    rw [splitIntoPages_pieces filled wide] at small
    exact fun start rows tried closes => small _ (mem_piecesFrom_of_tried rowsEachPage_pos filled tried closes)

theorem splitIntoPages_ne_nil : ∃ piece, piece ∈ splitIntoPages crates column target := by
  refine exists_mem_of_ne_nil _ fun empty => ?_
  have whole : joinAll none (splitIntoPages crates column target) = .ok (some column) :=
    joinAll_splitIntoPages filled
  rw [empty] at whole
  cases whole

omit filled

/-- The pages a column is split into are read back exactly where it is not raw data and no
stretch that closes a page takes more bytes than any page can hold. -/
theorem pages_read_back_iff (restores : crates.Restores) (typed : column.Typed) (filled : 0 < column.length)
    (target : Nat) : PagesReadBack crates column target ↔ column.isRaw = false ∧ ClosesSmall crates column target := by
  constructor
  · intro held
    have accepted : ∀ piece ∈ splitIntoPages crates column target,
        (encodeValues piece).length ≤ maxUncompressedPageBytes ∧ piece.isRaw = false := by
      intro piece inside
      have read := held.reads_back piece inside [] [] (by simp) true
      simpa using readPage_small read
    obtain ⟨piece, inside⟩ : ∃ piece, piece ∈ splitIntoPages crates column target := splitIntoPages_ne_nil filled
    refine ⟨?_, closesSmall_of_pieces filled fun piece inside => (accepted piece inside).1⟩
    rw [← (splitIntoPages_spec filled inside).2.2.1]
    exact (accepted piece inside).2
  · rintro ⟨shape, small⟩
    refine ⟨fun each positive fuel enough => ?_, fun start rows fuel enough => ?_, ?_, joinAll_splitIntoPages filled,
      ?_, ?_, ?_⟩
    · exact piecesFrom_enough positive _ _ 0 enough (le_refl _)
    · exact shrink_enough fuel rows enough (le_refl _)
    · exact fun piece inside => (splitIntoPages_spec filled inside).1
    · exact fun piece inside => (splitIntoPages_spec filled inside).2.1
    · intro piece inside before after low verify
      obtain ⟨some, -, kind, types, bound⟩ := splitIntoPages_spec filled inside
      exact readPage_writePage restores (types typed) (kind.trans shape) some (bound small) before after low verify
    · exact fun piece inside => (splitIntoPages_spec filled inside).2.2.2.2 small

end

theorem refused_of_large (crates : Crates) (column : Column) (target : Nat) (filled : 0 < column.length)
    (fits : (writePage crates column).length ≤ target)
    (large : maxUncompressedPageBytes < (encodeValues column).length) : ¬ PagesReadBack crates column target := by
  intro held
  have inside : column ∈ splitIntoPages crates column target := by
    rw [splitIntoPages_whole filled fits]
    exact mem_cons_self
  have read := held.reads_back column inside [] [] (by simp) true
  have small := (readPage_small read).1
  rw [Column.encodeValues_asRead] at small
  omega

/-- Three rows that no page under the target holds together, a page each. -/
theorem pages_read_back_single_rows : PagesReadBack zeroCrates (.booleans [true, false, true]) 10 := by
  refine (@pages_read_back_iff zeroCrates (.booleans [true, false, true])
    (fun level plain packed compressed => (by cases compressed)) trivial (by decide) 10).mpr ⟨rfl, ?_⟩
  have few (start last : Nat) :
      (encodeValues (Column.slice start last (.booleans [true, false, true]))).length ≤ maxUncompressedPageBytes := by
    have rows : ((([true, false, true] : List Bool).take last).drop start).length ≤ 3 := by
      simp
    have bytes := length_packBits ((([true, false, true] : List Bool).take last).drop start)
    unfold maxUncompressedPageBytes
    simp only [Column.slice, encodeValues]
    omega
  unfold ClosesSmall
  split
  · decide
  · exact fun start rows _ _ => few start (start + rows)

def repeated (rows : Nat) (text : String) : Column := .text (List.replicate rows (some text))

theorem length_encodeValues_repeated (rows : Nat) (text : String) :
    rows * (textBytes text).length ≤ (encodeValues (repeated rows text)).length := by
  have region : ((List.replicate rows (some text)).map rowText).flatten.length = rows * (textBytes text).length := by
    rw [map_replicate, length_flatten, map_replicate, sum_replicate]
    rfl
  have whole : (encodeValues (repeated rows text)).length = _ := length_append
  have same : ((List.replicate rows (some text)).map fun value => textBytes (value.getD "")).flatten.length =
      rows * (textBytes text).length := region
  rw [whole, same]
  exact Nat.le_add_left _ _

/-- A compressor that packs one run of bytes, and only that, into so many. -/
def packing (plain : Bytes) (size : Nat) : Crates :=
  { zeroCrates with
    compress := fun _ given => if given = plain then some (List.replicate size 0) else none
    decompress := fun packed _ => if packed = List.replicate size 0 then some plain else none }

theorem restores_packing (plain : Bytes) (size : Nat) : (packing plain size).Restores := by
  intro level given packed compressed
  simp only [packing] at compressed ⊢
  split at compressed
  · rename_i same
    cases compressed
    rw [if_pos rfl, same]
  · cases compressed

theorem length_writePage_packing (column : Column) (size : Nat) (long : 64 ≤ (encodeValues column).length)
    (less : size < (encodeValues column).length) :
    (writePage (packing (encodeValues column) size) column).length = 24 + (column.length + 7) / 8 + size := by
  have packed : (packing (encodeValues column) size).compress column.level (encodeValues column) =
      some (List.replicate size 0) := if_pos rfl
  have stored : storedValues (packing (encodeValues column) size) column = (.zstandard, List.replicate size 0) := by
    rw [storedValues, packed]
    dsimp only
    rw [if_neg (by omega), length_replicate, if_pos less]
  simp only [writePage, stored, length_append, length_putU32, length_putU16, length_putU64, length_packBits,
    Column.length_nulls, length_replicate]
  omega

/-- Four hundred thousand rows with one text of two hundred letters compress under the page
target, and expand to more than any page can hold. -/
theorem repetitive_column_is_refused : ¬ ∀ (crates : Crates) (column : Column) (target : Nat),
    crates.Restores → column.Typed → 0 < column.length → PagesReadBack crates column target := by
  intro all
  have letters : (textBytes (String.ofList (List.replicate 200 'a'))).length = 200 := by decide +kernel
  generalize String.ofList (List.replicate 200 'a') = text at letters
  have filled : (repeated 400000 text).length = 400000 := List.length_replicate
  have large := length_encodeValues_repeated 400000 text
  rw [letters] at large
  have size := length_writePage_packing (repeated 400000 text) 10000 (by omega) (by omega)
  rw [filled] at size
  refine refused_of_large (packing (encodeValues (repeated 400000 text)) 10000) (repeated 400000 text) (64 * 1024)
    (by omega) ?_ ?_ (all _ _ _ (restores_packing _ _) trivial (by omega))
  · omega
  · unfold maxUncompressedPageBytes
    omega

end TallyOwl.SegmentFormat
