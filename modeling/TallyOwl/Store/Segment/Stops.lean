import TallyOwl.Store.Segment.File

/-! Which files stop the process that reads them. Every offset is checked against the bytes
before it is used, so opening a file stops on none; reading rows and asking an index have
four places that do, each named here. -/
namespace TallyOwl.SegmentFormat
open Lib Lib.Checked Format Cbor RowCodec List OrderedMap

section
variable {bytes : Bytes}

theorem not_faults_getVarintFrom (small : bytes.length < 2 ^ 63) (groups shift used value : Nat) :
    ¬ Faults (getVarintFrom bytes groups shift used value) := by
  induction groups generalizing shift used value with
  | zero => simp [getVarintFrom]
  | succ groups ih =>
    unfold getVarintFrom
    split
    · simp
    · rename_i byte found
      have inside := (List.getElem?_eq_some_iff.mp found).1
      refine not_faults_word_bind (by omega) ?_
      dsimp only
      split
      · simp
      · exact ih _ _ _

theorem not_faults_getVarint (small : bytes.length < 2 ^ 63) (start : Nat) :
    ¬ Faults (getVarint bytes start) := not_faults_getVarintFrom small 10 0 start 0

theorem getVarint_ok {start value next : Nat} (read : getVarint bytes start = .ok (value, next)) :
    start < next ∧ next ≤ bytes.length := getVarintFrom_ok read

end

/-! Pages. -/

section
variable {bytes : Bytes}

theorem not_faults_readDeltas (small : bytes.length < 2 ^ 63) (rows start : Nat) (previous : Int) :
    ¬ Faults (readDeltas bytes rows start previous) := by
  induction rows generalizing start previous with
  | zero => simp [readDeltas]
  | succ rows ih =>
    refine not_faults_bind (not_faults_getVarint small start) fun found _ => ?_
    exact not_faults_map (ih _ _)

theorem readDeltas_ok {rows start last : Nat} {previous : Int} {values : List Int}
    (inside : start ≤ bytes.length) (read : readDeltas bytes rows start previous = .ok (values, last)) :
    values.length = rows ∧ last ≤ bytes.length := by
  induction rows generalizing start previous values with
  | zero =>
    obtain ⟨rfl, rfl⟩ := Prod.mk.injEq .. ▸ Except.ok.inj read
    exact ⟨rfl, inside⟩
  | succ rows ih =>
    obtain ⟨⟨raw, next⟩, number, rest⟩ := bind_eq_ok.mp read
    obtain ⟨⟨tail, last'⟩, more, done⟩ := bind_eq_ok.mp rest
    obtain ⟨rfl, rfl⟩ := Prod.mk.injEq .. ▸ Except.ok.inj done
    obtain ⟨count, bound⟩ := ih (getVarint_ok number).2 more
    exact ⟨by rw [length_cons, count], bound⟩

theorem not_faults_readVarints (small : bytes.length < 2 ^ 63) (rows start : Nat) :
    ¬ Faults (readVarints bytes rows start) := by
  induction rows generalizing start with
  | zero => simp [readVarints]
  | succ rows ih =>
    refine not_faults_bind (not_faults_getVarint small start) fun found _ => ?_
    exact not_faults_map (ih _)

theorem not_faults_readFloats {rows index : Nat} (few : index + rows ≤ 2 ^ 32) :
    ¬ Faults (readFloats bytes rows index) := by
  induction rows generalizing index with
  | zero => simp [readFloats]
  | succ rows ih =>
    refine not_faults_word_bind (by omega) ?_
    refine not_faults_lift_bind fun found _ => ?_
    exact not_faults_map (ih (by omega))

theorem not_faults_readBooleans {rows index : Nat} (room : (index + rows + 7) / 8 ≤ bytes.length) :
    ¬ Faults (readBooleans bytes rows index) := by
  induction rows generalizing index with
  | zero => simp [readBooleans]
  | succ rows ih =>
    obtain ⟨byte, found⟩ : ∃ byte, bytes[index / 8]? = some byte :=
      ⟨_, getElem?_eq_getElem (by omega)⟩
    refine not_faults_bind (by rw [item_of_lt found]; exact not_faults_ok byte) fun byte _ => ?_
    exact not_faults_map (ih (by omega))

theorem not_faults_readTails {start : Nat} (low : start < 2 ^ 63) {heads : List Int} {index : Nat}
    (few : index + heads.length ≤ 2 ^ 32) : ¬ Faults (readTails bytes start heads index) := by
  induction heads generalizing index with
  | nil => simp [readTails]
  | cons head heads ih =>
    rw [length_cons] at few
    refine not_faults_word_bind (by omega) ?_
    refine not_faults_word_bind (by omega) ?_
    refine not_faults_lift_bind fun tail _ => ?_
    exact not_faults_map (ih (by omega))

theorem not_faults_readLengths (small : bytes.length < 2 ^ 63) (rows start total : Nat) :
    ¬ Faults (readLengths bytes rows start total) := by
  induction rows generalizing start total with
  | zero => simp [readLengths]
  | succ rows ih =>
    refine not_faults_bind (not_faults_getVarint small start) fun found _ => ?_
    dsimp only
    split
    · simp
    · exact not_faults_map (ih _ _)

theorem readLengths_ok {rows start total sum last : Nat} {lengths : List Nat}
    (read : readLengths bytes rows start total = .ok (lengths, sum, last)) : sum = total + lengths.sum := by
  induction rows generalizing start total lengths with
  | zero =>
    simp only [readLengths, Except.ok.injEq, Prod.mk.injEq] at read
    obtain ⟨rfl, rfl, -⟩ := read
    simp
  | succ rows ih =>
    obtain ⟨⟨length, next⟩, number, rest⟩ := bind_eq_ok.mp read
    dsimp only at rest
    split at rest
    · cases rest
    · obtain ⟨⟨tail, sum', last'⟩, more, done⟩ := bind_eq_ok.mp rest
      simp only [Except.ok.injEq, Prod.mk.injEq] at done
      obtain ⟨rfl, rfl, rfl⟩ := done
      rw [ih more, sum_cons]
      omega

theorem not_faults_readTexts (small : bytes.length < 2 ^ 63) (nulls : List Bool) {lengths : List Nat}
    {start : Nat} (room : start + lengths.sum ≤ bytes.length) (index : Nat) :
    ¬ Faults (readTexts bytes nulls lengths start index) := by
  induction lengths generalizing start index with
  | nil => simp [readTexts]
  | cons length lengths ih =>
    rw [sum_cons] at room
    refine not_faults_word_bind (by omega) ?_
    refine not_faults_bind ?_ fun raw _ => ?_
    · rw [part_of_le (by omega) (by omega)]
      exact not_faults_ok _
    · have room' : start + length + lengths.sum ≤ bytes.length := by omega
      have more := ih room' (index + 1)
      split
      · exact not_faults_map more
      · split
        · simp
        · exact not_faults_map more

/-- A text page whose declared lengths, put behind the numbers that declare them, end past
the last machine word. -/
def Wraps (bytes : Bytes) (encoding : Encoding) (rows : Nat) : Prop :=
  encoding = .offsetBytes ∧ ∃ lengths total start,
    readLengths bytes rows 0 0 = .ok (lengths, total, start) ∧ 2 ^ 64 ≤ start + total

theorem faults_decodeValues (small : bytes.length < 2 ^ 63) {rows backing : Nat} (few : rows < 2 ^ 32)
    (backed : rows ≤ 8 * backing) (encoding : Encoding) (nulls : List Bool) :
    Faults (decodeValues bytes encoding rows nulls backing) ↔ Wraps bytes encoding rows := by
  have room : ¬ Faults (allocate rows backing : Checked FormatError Unit) := by
    rw [allocate_of_le backed]
    exact not_faults_ok ()
  have never : encoding ≠ .offsetBytes → ¬ Faults (decodeValues bytes encoding rows nulls backing) →
      (Faults (decodeValues bytes encoding rows nulls backing) ↔ Wraps bytes encoding rows) := by
    intro other none
    exact iff_of_false none fun wraps => other wraps.1
  cases encoding with
  | plainFixed =>
    refine never (by decide) (not_faults_bind (not_faults_word (by omega)) fun floats here => ?_)
    split
    · refine not_faults_bind room fun _ _ => ?_
      exact not_faults_map (not_faults_readFloats (by omega))
    · split
      · rename_i bits
        refine not_faults_bind room fun _ _ => ?_
        refine not_faults_bind (not_faults_readBooleans ?_) fun _ _ => not_faults_ok _
        omega
      · simp
  | varint =>
    refine never (by decide) (not_faults_bind room fun _ _ => ?_)
    exact not_faults_map (not_faults_readVarints small rows 0)
  | varintDelta =>
    refine never (by decide) (not_faults_bind room fun _ _ => ?_)
    exact not_faults_map (not_faults_readDeltas small rows 0 0)
  | dictionary => exact never (by decide) (not_faults_fail _)
  | splitPrefix =>
    refine never (by decide) (not_faults_bind room fun _ _ => ?_)
    refine not_faults_bind (not_faults_readDeltas small rows 0 0) fun found read => ?_
    obtain ⟨count, bound⟩ := readDeltas_ok (Nat.zero_le _) read
    exact not_faults_map (not_faults_readTails (by omega) (by omega))
  | offsetBytes =>
    simp only [decodeValues, allocate_of_le backed, ok_bind]
    rw [faults_bind]
    constructor
    · rintro (here | ⟨⟨lengths, total, start⟩, read, there⟩)
      · exact (not_faults_readLengths small rows 0 0 here).elim
      · rcases faults_bind.mp there with wide | ⟨last, here, after⟩
        · exact ⟨rfl, lengths, total, start, read, faults_word.mp wide⟩
        · obtain ⟨-, rfl⟩ := word_eq_ok.mp here
          have sum := readLengths_ok read
          dsimp only at after
          split at after
          · simp at after
          · refine (not_faults_bind (not_faults_readTexts small nulls ?_ 0) (fun _ _ => not_faults_ok _)
              after).elim
            omega
    · rintro ⟨-, lengths, total, start, read, wide⟩
      exact .inr ⟨_, read, faults_bind.mpr (.inl (faults_word.mpr wide))⟩

end

theorem slice_inside {bytes x : Bytes} {start length : Nat} (read : slice bytes start length = .ok x) :
    start + length ≤ bytes.length ∧ x.length = length := by
  have found := slice_ok.mp read
  exact ⟨(window_eq_some.mp found).1, length_of_window found⟩

theorem getU32_inside {bytes : Bytes} {start value : Nat} (read : getU32 bytes start = .ok value) :
    start + 4 ≤ bytes.length ∧ value < 2 ^ 32 := by
  obtain ⟨small, found⟩ := getU32_ok read
  exact ⟨(window_eq_some.mp found).1, small⟩

section
variable {crates : Crates} {bytes : Bytes} {start : Nat} {verify : Bool}

theorem expand_ok {codec : Codec} {body plain : Bytes} {uncompressed : Nat}
    (read : expand crates codec body uncompressed = .ok plain) : plain.length = uncompressed := by
  unfold expand at read
  split at read
  · cases read
  · split at read
    · cases read
    · rename_i same
      cases read
      exact not_not.mp same

/-- What a page that was read says about its rows and its values. -/
structure PageFits (page : PageContent) : Prop where
  few : page.rows < 2 ^ 32
  backed : page.rows ≤ 8 * page.backing
  short : page.plain.length < 2 ^ 63

theorem not_faults_pageContent (small : bytes.length < 2 ^ 63) : ¬ Faults (pageContent crates bytes start verify) := by
  refine not_faults_lift_bind fun length head => ?_
  have inside := (getU32_inside head).1
  refine not_faults_word_bind (by omega) (not_faults_lift_bind fun _ _ => ?_)
  refine not_faults_word_bind (by omega) (not_faults_lift_bind fun _ _ => ?_)
  refine not_faults_word_bind (by omega) (not_faults_lift_bind fun rows _ => ?_)
  refine not_faults_word_bind (by omega) (not_faults_lift_bind fun _ _ => ?_)
  refine not_faults_word_bind (by omega) (not_faults_lift_bind fun _ _ => ?_)
  refine not_faults_bind (not_faults_lift _) fun _ _ => not_faults_bind (not_faults_lift _) fun _ _ => ?_
  refine not_faults_word_bind (by unfold pageHeaderBytes; omega) ?_
  refine not_faults_lift_bind fun onDisk _ => ?_
  split
  · exact not_faults_fail _
  · split
    · exact not_faults_fail _
    · rename_i _ short
      refine not_faults_bind ?_ fun bitmap _ => not_faults_bind ?_ fun body _ => ?_
      · rw [part_of_le (by omega) (by omega)]
        exact not_faults_ok _
      · rw [part_of_le (by omega) (by omega)]
        exact not_faults_ok _
      · split
        · exact not_faults_fail _
        · refine not_faults_lift_bind fun plain _ => ?_
          rw [allocate_of_le (by omega), ok_bind]
          exact not_faults_ok _

theorem pageContent_bounds {page : PageContent} (read : pageContent crates bytes start verify = .ok page) :
    page.rows < 2 ^ 32 ∧ page.rows ≤ 8 * page.backing ∧ page.plain.length ≤ maxUncompressedPageBytes := by
  obtain ⟨length, _, read⟩ := bind_eq_ok.mp read
  obtain ⟨_, _, read⟩ := bind_eq_ok.mp read
  obtain ⟨_, _, read⟩ := bind_eq_ok.mp read
  obtain ⟨_, _, read⟩ := bind_eq_ok.mp read
  obtain ⟨_, _, read⟩ := bind_eq_ok.mp read
  obtain ⟨_, _, read⟩ := bind_eq_ok.mp read
  obtain ⟨rows, counted, read⟩ := bind_eq_ok.mp read
  obtain ⟨_, _, read⟩ := bind_eq_ok.mp read
  obtain ⟨uncompressed, _, read⟩ := bind_eq_ok.mp read
  obtain ⟨_, _, read⟩ := bind_eq_ok.mp read
  obtain ⟨_, _, read⟩ := bind_eq_ok.mp read
  obtain ⟨_, _, read⟩ := bind_eq_ok.mp read
  obtain ⟨_, _, read⟩ := bind_eq_ok.mp read
  obtain ⟨_, _, read⟩ := bind_eq_ok.mp read
  obtain ⟨onDisk, _, read⟩ := bind_eq_ok.mp read
  have few := (getU32_inside (lift_eq_ok.mp counted)).2
  split at read
  · cases read
  · split at read
    · cases read
    · rename_i _ short
      obtain ⟨_, _, read⟩ := bind_eq_ok.mp read
      obtain ⟨_, _, read⟩ := bind_eq_ok.mp read
      split at read
      · cases read
      · rename_i room
        obtain ⟨plain, expanded, read⟩ := bind_eq_ok.mp read
        obtain ⟨_, _, read⟩ := bind_eq_ok.mp read
        cases read
        have size := expand_ok (lift_eq_ok.mp expanded)
        exact ⟨few, by dsimp only; omega, by dsimp only; omega⟩

theorem pageContent_fits {page : PageContent} (read : pageContent crates bytes start verify = .ok page) :
    PageFits page := by
  obtain ⟨few, backed, small⟩ := pageContent_bounds read
  unfold maxUncompressedPageBytes at small
  exact ⟨few, backed, by omega⟩

def WrapsAt (crates : Crates) (bytes : Bytes) (verify : Bool) (start : Nat) : Prop :=
  ∃ page, pageContent crates bytes start verify = .ok page ∧ Wraps page.plain page.encoding page.rows

theorem faults_readPage (small : bytes.length < 2 ^ 63) :
    Faults (readPage crates bytes start verify) ↔ WrapsAt crates bytes verify start := by
  rw [readPage, faults_bind]
  constructor
  · rintro (here | ⟨page, read, there⟩)
    · exact (not_faults_pageContent small here).elim
    · have fits := pageContent_fits read
      exact ⟨page, read, (faults_decodeValues fits.short fits.few fits.backed _ _).mp there⟩
  · rintro ⟨page, read, wraps⟩
    have fits := pageContent_fits read
    exact .inr ⟨page, read, (faults_decodeValues fits.short fits.few fits.backed _ _).mpr wraps⟩

end

/-! Index blocks. -/

section
variable {bytes : Bytes}

theorem not_faults_readWords {start count index : Nat} (low : start + 4 + (index + count) * 8 < 2 ^ 64) :
    ¬ Faults (BlockFilter.readWords bytes start count index) := by
  induction count generalizing index with
  | zero => simp [BlockFilter.readWords]
  | succ count ih =>
    refine not_faults_word_bind (by omega) ?_
    refine not_faults_lift_bind fun _ _ => ?_
    exact not_faults_map (ih (by omega))

variable (small : bytes.length < 2 ^ 63)
include small

theorem not_faults_readFilter (start : Nat) :
    ¬ Faults (BlockFilter.read bytes start) := by
  refine not_faults_lift_bind fun count head => ?_
  obtain ⟨inside, few⟩ := getU32_inside head
  refine not_faults_word_bind (by omega) ?_
  refine not_faults_word_bind (by omega) ?_
  refine not_faults_lift_bind fun region there => ?_
  have room := (slice_inside there).1
  rw [allocate_of_le (by omega), ok_bind]
  refine not_faults_bind (not_faults_readWords (by omega)) fun words _ => ?_
  exact not_faults_map (not_faults_word (by omega))

theorem not_faults_readFilters (count used : Nat) :
    ¬ Faults (readFilters bytes count used) := by
  induction count generalizing used with
  | zero => simp [readFilters]
  | succ count ih =>
    refine not_faults_bind (not_faults_readFilter small used) fun found _ => ?_
    exact not_faults_map (ih _)

theorem not_faults_readPostedRows (count used previous : Nat) :
    ¬ Faults (TermPostings.readRows bytes count used previous) := by
  induction count generalizing used previous with
  | zero => simp [TermPostings.readRows]
  | succ count ih =>
    refine not_faults_bind (not_faults_getVarint small used) fun found _ => ?_
    exact not_faults_map (ih _ _)

theorem not_faults_readTerms (count used : Nat) (held : TermPostings) :
    ¬ Faults (TermPostings.readTerms bytes count used held) := by
  induction count generalizing used held with
  | zero => simp [TermPostings.readTerms]
  | succ count ih =>
    refine not_faults_bind (not_faults_getVarint small used) fun found number => ?_
    refine not_faults_lift_bind fun term there => ?_
    have room := (slice_inside there).1
    refine not_faults_word_bind (by omega) ?_
    refine not_faults_bind (not_faults_getVarint small _) fun rows _ => ?_
    dsimp only
    split
    · exact not_faults_fail _
    · rw [allocate_of_le (by omega), ok_bind]
      refine not_faults_bind (not_faults_readPostedRows small _ _ _) fun list _ => ?_
      exact ih _ _

theorem not_faults_readPostings (start : Nat) :
    ¬ Faults (TermPostings.read bytes start) := by
  refine not_faults_lift_bind fun count head => ?_
  have inside := (getU32_inside head).1
  refine not_faults_word_bind (by omega) ?_
  split
  · exact not_faults_fail _
  · exact not_faults_readTerms small _ _ _

omit small

theorem not_faults_readFingerprints {start count index : Nat} (low : start + 4 + (index + count) * 12 < 2 ^ 64) :
    ¬ Faults (UniqueLookup.readEntries bytes start count index) := by
  induction count generalizing index with
  | zero => simp [UniqueLookup.readEntries]
  | succ count ih =>
    refine not_faults_word_bind (by omega) ?_
    refine not_faults_lift_bind fun _ _ => ?_
    refine not_faults_word_bind (by omega) ?_
    refine not_faults_lift_bind fun _ _ => ?_
    exact not_faults_map (ih (by omega))

theorem not_faults_readLookup (small : bytes.length < 2 ^ 63) (start : Nat) :
    ¬ Faults (UniqueLookup.read bytes start) := by
  refine not_faults_lift_bind fun count head => ?_
  obtain ⟨inside, few⟩ := getU32_inside head
  refine not_faults_word_bind (by omega) ?_
  refine not_faults_word_bind (by omega) ?_
  refine not_faults_lift_bind fun region there => ?_
  have room := (slice_inside there).1
  rw [allocate_of_le (by omega), ok_bind]
  refine not_faults_bind (not_faults_readFingerprints (by omega)) fun entries _ => ?_
  exact not_faults_map (not_faults_word (by omega))

theorem not_faults_decodeIndex (small : bytes.length < 2 ^ 63) (layout : IndexLayout) :
    ¬ Faults (decodeIndex bytes layout) := by
  cases layout with
  | blockFilter =>
    refine not_faults_lift_bind fun count _ => ?_
    split
    · exact not_faults_fail _
    · rw [allocate_of_le (by omega), ok_bind]
      exact not_faults_map (not_faults_readFilters small _ _)
  | termPostings => exact not_faults_map (not_faults_readPostings small 0)
  | uniqueLookup => exact not_faults_map (not_faults_readLookup small 0)

theorem not_faults_readIndex (crates : Crates) (small : bytes.length < 2 ^ 63) (start : Nat) (verify : Bool) :
    ¬ Faults (readIndex crates bytes start verify) := by
  refine not_faults_lift_bind fun length head => ?_
  have inside := (getU32_inside head).1
  refine not_faults_word_bind (by omega) (not_faults_lift_bind fun _ _ => ?_)
  refine not_faults_word_bind (by omega) (not_faults_lift_bind fun _ _ => ?_)
  refine not_faults_bind (not_faults_word (by unfold indexHeaderBytes; omega)) fun body here => ?_
  refine not_faults_lift_bind fun onDisk there => ?_
  have room := slice_inside there
  split
  · exact not_faults_fail _
  · split
    · exact not_faults_fail _
    · exact not_faults_decodeIndex (by omega) _

end

section
variable {checksum : Bytes → UInt64} {value : Bytes}

theorem faults_maybe {filter : BlockFilter} : Faults (filter.maybe checksum value) ↔ filter.words = [] := by
  constructor
  · intro stops
    by_contra some
    have positive := length_pos_iff.mpr some
    refine not_faults_bind ?_ (fun place there => ?_) stops
    · refine not_faults_bind ?_ fun _ _ => not_faults_ok _
      rw [minus_of_le positive]
      exact not_faults_ok _
    · obtain ⟨mask, here, same⟩ := bind_eq_ok.mp there
      rw [minus_of_le positive] at here
      cases here
      cases same
      have low : ((checksum value >>> 32).toNat &&& (filter.words.length - 1)) < filter.words.length := by
        have bound := @Nat.and_le_right (checksum value >>> 32).toNat (filter.words.length - 1)
        omega
      rw [item_of_lt (getElem?_eq_getElem low), ok_bind]
      exact not_faults_ok _
  · intro empty
    refine faults_bind.mpr (.inl (faults_bind.mpr (.inl ?_)))
    rw [empty]
    exact faults_fault _

/-- A filter with no word behind filters that all rule the value out. -/
def EmptyFilter (checksum : Bytes → UInt64) (value : Bytes) (filters : List BlockFilter) : Prop :=
  ∃ before after, filters = before ++ ⟨[]⟩ :: after ∧
    ∀ filter ∈ before, filter.maybe checksum value = .ok false

theorem faults_anyMaybe {crates : Crates} {filters : List BlockFilter} :
    Faults (anyMaybe crates value filters) ↔ EmptyFilter crates.checksum value filters := by
  induction filters with
  | nil => simp [anyMaybe, EmptyFilter]
  | cons filter filters ih =>
    rw [anyMaybe, faults_bind, faults_maybe]
    constructor
    · rintro (empty | ⟨found, answer, stops⟩)
      · obtain ⟨words⟩ := filter
        obtain rfl : words = [] := empty
        exact ⟨[], filters, rfl, by simp⟩
      · cases found with
        | true => simp at stops
        | false =>
          obtain ⟨before, after, rfl, no⟩ := ih.mp stops
          exact ⟨filter :: before, after, rfl, forall_mem_cons.mpr ⟨answer, no⟩⟩
    · rintro ⟨before, after, split, no⟩
      cases before with
      | nil =>
        obtain ⟨rfl, rfl⟩ := List.cons.inj split
        exact .inl rfl
      | cons first before =>
        obtain ⟨rfl, rfl⟩ := List.cons.inj split
        obtain ⟨answer, rest⟩ := forall_mem_cons.mp no
        exact .inr ⟨false, answer, ih.mpr ⟨before, after, rfl, rest⟩⟩

theorem partitionPoint_le (entries : UniqueLookup) (target : Nat) {fuel first size : Nat}
    (inside : first + size ≤ entries.length) :
    UniqueLookup.partitionPoint entries target fuel first size ≤ entries.length := by
  induction fuel generalizing first size with
  | zero =>
    rw [UniqueLookup.partitionPoint]
    omega
  | succ fuel ih =>
    unfold UniqueLookup.partitionPoint
    split
    · omega
    · dsimp only
      split
      · exact ih (by omega)
      · exact ih (by omega)

theorem not_faults_candidates (entries : UniqueLookup) (target : Nat) :
    ¬ Faults (UniqueLookup.candidates entries target) := by
  refine not_faults_bind ?_ fun _ _ => not_faults_ok _
  rw [part_of_le (partitionPoint_le entries target (by omega)) (le_refl _)]
  exact not_faults_ok _

theorem faults_mayHold {crates : Crates} {segment : Segment} (small : segment.bytes.length < 2 ^ 63)
    {verify : Bool} {column : String} : Faults (segment.mayHold crates verify column value) ↔
      ∃ filters, segment.index crates verify column = .ok (some (.blockFilter filters)) ∧
        EmptyFilter crates.checksum value filters := by
  have reads : ¬ Faults (segment.index crates verify column) := by
    unfold Segment.index
    split
    · exact not_faults_ok _
    · exact not_faults_map (not_faults_readIndex crates small _ verify)
  unfold Segment.mayHold
  split
  · rename_i none
    simp [none]
  · rename_i index found
    cases index with
    | blockFilter filters => simp [found, ColumnIndex.mayHold, faults_anyMaybe]
    | termPostings postings => simp [found, ColumnIndex.mayHold]
    | uniqueLookup entries =>
      have none := not_faults_bind (not_faults_candidates entries (crates.checksum value).toNat)
        fun candidates _ => (not_faults_ok (!candidates.isEmpty) : ¬ Faults (.ok _ : Checked FormatError Bool))
      simp [found, ColumnIndex.mayHold, none]
  · rename_i damaged
    simp [damaged]
  · rename_i f stops
    exact (reads ⟨f, stops⟩).elim

end

/-! Opening. -/

theorem not_faults_decodePart {bytes : Bytes} (small : bytes.length < 2 ^ 63) (what : String) :
    ¬ Faults (decodePart what bytes) := by
  rw [decodePart, decodeChecked_eq small]
  cases decode bytes with
  | error e => exact not_faults_fail _
  | ok value => exact not_faults_ok value

section
variable {crates : Crates} {bytes : Bytes}

theorem not_faults_openFooter (small : bytes.length < 2 ^ 63) (long : trailerBytes ≤ bytes.length)
    (verify : Bool) : ¬ Faults (openFooter crates bytes verify) := by
  rw [openFooter, minus_of_le long, ok_bind]
  unfold trailerBytes at long ⊢
  refine not_faults_lift_bind fun _ _ => ?_
  refine not_faults_word_bind (by omega) (not_faults_lift_bind fun _ _ => ?_)
  refine not_faults_word_bind (by omega) (not_faults_lift_bind fun _ _ => ?_)
  refine not_faults_lift_bind fun part there => ?_
  have room := slice_inside there
  split
  · exact not_faults_fail _
  · exact not_faults_bind (not_faults_decodePart (by omega) _) fun _ _ => not_faults_lift _

theorem not_faults_openHeader (small : bytes.length < 2 ^ 63) : ¬ Faults (openHeader bytes) := by
  refine not_faults_lift_bind fun _ _ => ?_
  split
  · exact not_faults_fail _
  · refine not_faults_bind (not_faults_lift _) fun _ _ => not_faults_bind (not_faults_lift _) fun _ _ => ?_
    refine not_faults_lift_bind fun part there => ?_
    have room := slice_inside there
    refine not_faults_bind (not_faults_decodePart (by omega) _) fun _ _ => ?_
    exact not_faults_map (not_faults_lift _)

theorem not_faults_openSegment (small : bytes.length < 2 ^ 63) (verify : Bool) :
    ¬ Faults (openSegment crates bytes verify) := by
  unfold openSegment
  split
  · exact not_faults_fail _
  · rename_i long
    unfold prologueBytes trailerBytes at long
    rw [part_of_le (by omega) (by omega), ok_bind]
    split
    · exact not_faults_fail _
    · rw [minus_of_le (by omega), ok_bind, part_of_le (by omega) (by omega), ok_bind]
      split
      · exact not_faults_fail _
      · refine not_faults_bind (not_faults_openFooter small (by unfold trailerBytes; omega) verify)
          fun footer _ => not_faults_bind (not_faults_openHeader small) fun header _ => ?_
        split
        · exact not_faults_fail _
        · rw [part_of_le (by omega) (by omega), ok_bind]
          exact not_faults_ok _

theorem openSegment_ok {verify : Bool} {segment : Segment} (opened : openSegment crates bytes verify = .ok segment) :
    segment.bytes = bytes ∧ segment.header.rowCount = listedRows segment.footer.rowGroups ∧
      openFooter crates bytes verify = .ok segment.footer := by
  unfold openSegment at opened
  split at opened
  · cases opened
  · obtain ⟨first, _, opened⟩ := bind_eq_ok.mp opened
    split at opened
    · cases opened
    · obtain ⟨_, _, opened⟩ := bind_eq_ok.mp opened
      obtain ⟨last, _, opened⟩ := bind_eq_ok.mp opened
      split at opened
      · cases opened
      · obtain ⟨footer, directory, opened⟩ := bind_eq_ok.mp opened
        obtain ⟨header, _, opened⟩ := bind_eq_ok.mp opened
        split at opened
        · cases opened
        · rename_i agree
          obtain ⟨address, _, opened⟩ := bind_eq_ok.mp opened
          cases opened
          exact ⟨rfl, not_not.mp agree, directory⟩

end

/-! Rows. -/

def HexPairs : List Char → Prop
  | [] => True
  | [_] => False
  | high :: low :: rest =>
      high.utf8Size = 1 ∧ low.utf8Size = 1 ∧ (hexByte high low).isSome ∧ HexPairs rest

/-- The text of a `bytes` property that is cut inside a character: behind whole pairs the
next two bytes are neither one character nor two. -/
def CutInside (text : String) : Prop :=
  (textBytes text).length % 2 = 0 ∧ ∃ pairs c rest, text.toList = pairs ++ c :: rest ∧
    HexPairs pairs ∧ c.utf8Size ≠ 2 ∧ ¬ (c.utf8Size = 1 ∧ ∃ d ∈ rest.head?, d.utf8Size = 1)

theorem faults_pairsOfHex (chars : List Char) : Faults (pairsOfHex chars) ↔
    ∃ pairs c rest, chars = pairs ++ c :: rest ∧ HexPairs pairs ∧ c.utf8Size ≠ 2 ∧
      ¬ (c.utf8Size = 1 ∧ ∃ d ∈ rest.head?, d.utf8Size = 1) := by
  fun_induction pairsOfHex chars with
  | case1 => simp
  | case2 c two =>
    refine iff_of_false (not_faults_ok _) ?_
    rintro ⟨pairs, d, rest, split, -, other, -⟩
    cases pairs with
    | nil =>
      obtain ⟨rfl, -⟩ := List.cons.inj split
      exact other two
    | cons e pairs => simp at split
  | case3 c other => exact iff_of_true (faults_fault _) ⟨[], c, [], rfl, trivial, other, by simp⟩
  | case4 high low rest two =>
    refine iff_of_false (not_faults_ok _) ?_
    rintro ⟨pairs, d, rest', split, whole, other, -⟩
    cases pairs with
    | nil =>
      obtain ⟨rfl, -⟩ := List.cons.inj split
      exact other two
    | cons e pairs =>
      obtain ⟨rfl, -⟩ := List.cons.inj split
      cases pairs with
      | nil => exact whole
      | cons f pairs =>
        have one := whole.1
        omega
  | case5 high low rest notTwo wide =>
    refine iff_of_true (faults_fault _) ⟨[], high, low :: rest, rfl, trivial, notTwo, ?_⟩
    rintro ⟨one, d, here, single⟩
    cases here
    exact wide.elim (fun no => no one) fun no => no single
  | case6 high low rest notTwo narrow none =>
    have sizes : high.utf8Size = 1 ∧ low.utf8Size = 1 := by
      refine ⟨?_, ?_⟩ <;> by_contra other <;> exact narrow (by simp [other])
    refine iff_of_false (not_faults_ok _) ?_
    rintro ⟨pairs, d, rest', split, whole, -, cut⟩
    cases pairs with
    | nil =>
      obtain ⟨rfl, rfl⟩ := List.cons.inj split
      exact cut ⟨sizes.1, low, rfl, sizes.2⟩
    | cons e pairs =>
      obtain ⟨rfl, tail⟩ := List.cons.inj split
      cases pairs with
      | nil => exact whole
      | cons f pairs =>
        obtain ⟨rfl, -⟩ := List.cons.inj tail
        simpa [none] using whole.2.2.1
  | case7 high low rest notTwo narrow byte number ih =>
    have sizes : high.utf8Size = 1 ∧ low.utf8Size = 1 := by
      refine ⟨?_, ?_⟩ <;> by_contra other <;> exact narrow (by simp [other])
    rw [faults_bind]
    constructor
    · rintro (stops | ⟨_, _, stops⟩)
      · obtain ⟨pairs, c, rest', rfl, whole, others⟩ := ih.mp stops
        exact ⟨high :: low :: pairs, c, rest', rfl,
          ⟨sizes.1, sizes.2, by simp [number], whole⟩, others⟩
      · exact (not_faults_ok _ stops).elim
    · rintro ⟨pairs, c, rest', split, whole, others⟩
      cases pairs with
      | nil =>
        obtain ⟨rfl, rfl⟩ := List.cons.inj split
        exact (others.2 ⟨sizes.1, low, rfl, sizes.2⟩).elim
      | cons e pairs =>
        obtain ⟨rfl, tail⟩ := List.cons.inj split
        cases pairs with
        | nil => exact whole.elim
        | cons f pairs =>
          obtain ⟨rfl, rfl⟩ := List.cons.inj tail
          exact .inl (ih.mpr ⟨pairs, c, rest', rfl, whole.2.2.2, others⟩)

theorem faults_hexBytes (text : String) : Faults (hexBytes text) ↔ CutInside text := by
  unfold hexBytes CutInside
  split
  · rename_i even
    simp only [even, true_and]
    exact faults_pairsOfHex text.toList
  · rename_i odd
    simp [odd]

section
variable {columns : Columns}

/-- A property of type `bytes` whose stored text is cut inside a character. -/
def BadBytes (columns : Columns) (key : String) (typeName : Option String) (index : Nat) : Prop :=
  typeName = some "bytes" ∧ ∃ texts text, columns.get? (columnName key ":s") = some (.text texts) ∧
    texts[index]? = some (some text) ∧ CutInside text

variable {index : Nat}

theorem faults_readValue {typeName : String} {column : Column} :
    Faults (readValue typeName column index) ↔ typeName = "bytes" ∧ ∃ texts text,
      column = .text texts ∧ texts[index]? = some (some text) ∧ CutInside text := by
  unfold readValue
  split
  case h_8 texts =>
    cases found : (texts[index]?).join with
    | none =>
      refine iff_of_false (not_faults_ok _) ?_
      rintro ⟨-, texts', text, same, here, -⟩
      obtain rfl := Column.text.inj same
      simp [here] at found
    | some text =>
      have here : texts[index]? = some (some text) := Option.join_eq_some_iff.mp found
      rw [faults_bind]
      constructor
      · rintro (stops | ⟨_, _, stops⟩)
        · exact ⟨rfl, texts, text, rfl, here, (faults_hexBytes text).mp stops⟩
        · exact (not_faults_ok _ stops).elim
      · rintro ⟨-, texts', text', same, there, cut⟩
        obtain rfl := Column.text.inj same
        obtain rfl : text = text' := by simpa [here] using there
        exact .inl ((faults_hexBytes text).mpr cut)
  case h_10 =>
    refine iff_of_false (not_faults_ok _) ?_
    rintro ⟨rfl, texts, text, rfl, -, -⟩
    simp_all
  all_goals simp

variable {key : String}

theorem faults_propertyAt {typeName : Option String} :
    Faults (propertyAt columns key typeName index) ↔ BadBytes columns key typeName index := by
  unfold propertyAt BadBytes
  cases typeName with
  | none => simp
  | some typeName =>
    dsimp only
    split
    · rename_i missing
      refine iff_of_false (not_faults_ok _) ?_
      rintro ⟨same, texts, text, here, -⟩
      cases same
      exact absurd (missing.symm.trans here) (by simp)
    · rename_i column found
      rw [faults_bind, faults_readValue]
      constructor
      · rintro (⟨rfl, texts, text, rfl, here, cut⟩ | ⟨_, _, stops⟩)
        · exact ⟨rfl, texts, text, found, here, cut⟩
        · exact (not_faults_ok _ stops).elim
      · rintro ⟨same, texts, text, here, there, cut⟩
        cases same
        obtain rfl := Option.some.inj (found.symm.trans here)
        exact .inl ⟨rfl, texts, text, rfl, there, cut⟩

theorem propertyAt_returns {typeName : Option String} (good : ¬ Faults (propertyAt columns key typeName index)) :
    ∃ property, propertyAt columns key typeName index = .ok property := by
  have hex : ∀ chars, Faults (pairsOfHex chars) ∨ ∃ bytes, pairsOfHex chars = .ok bytes := by
    intro chars
    fun_induction pairsOfHex chars with
    | case7 high low rest notTwo narrow byte number ih =>
      rcases ih with stops | ⟨bytes, read⟩
      · exact .inl (faults_bind.mpr (.inl stops))
      · exact .inr ⟨_, bind_eq_ok.mpr ⟨bytes, read, rfl⟩⟩
    | _ => first | exact .inr ⟨_, rfl⟩ | exact .inl (faults_fault _)
  have value : ∀ typeName column, Faults (readValue typeName column index) ∨
      ∃ value, readValue typeName column index = .ok value := by
    intro typeName column
    unfold readValue
    split
    case h_8 texts =>
      cases (texts[index]?).join with
      | none => exact .inr ⟨_, rfl⟩
      | some text =>
        have whole : Faults (hexBytes text) ∨ ∃ bytes, hexBytes text = .ok bytes := by
          unfold hexBytes
          split
          · exact hex text.toList
          · exact .inr ⟨_, rfl⟩
        rcases whole with stops | ⟨bytes, read⟩
        · exact .inl (faults_bind.mpr (.inl stops))
        · exact .inr ⟨_, bind_eq_ok.mpr ⟨bytes, read, rfl⟩⟩
    all_goals exact .inr ⟨_, rfl⟩
  unfold propertyAt at good ⊢
  cases typeName with
  | none => exact ⟨_, rfl⟩
  | some typeName =>
    dsimp only at good ⊢
    split
    · exact ⟨_, rfl⟩
    · rename_i column found
      rw [found] at good
      rcases value typeName column with stops | ⟨v, read⟩
      · exact (good (faults_bind.mpr (.inl stops))).elim
      · exact ⟨_, bind_eq_ok.mpr ⟨v, read, rfl⟩⟩

variable {out : List EventRow}

theorem faults_putKey {typeNames : List (Option String)} {start : Nat}
    : Faults (putKey columns key typeNames start out) ↔ ∃ index typeName, typeNames[index]? = some typeName ∧
        BadBytes columns key typeName (start + index) := by
  induction typeNames generalizing start out with
  | nil => simp [putKey]
  | cons typeName typeNames ih =>
    rw [putKey, faults_bind, faults_propertyAt]
    constructor
    · rintro (bad | ⟨property, -, stops⟩)
      · exact ⟨0, typeName, rfl, bad⟩
      · obtain ⟨index, other, here, bad⟩ := ih.mp stops
        exact ⟨index + 1, other, here, by rwa [Nat.add_assoc, Nat.add_comm 1] at bad⟩
    · rintro ⟨index, other, here, bad⟩
      by_cases now : Faults (propertyAt columns key typeName start)
      · exact .inl (faults_propertyAt.mp now)
      · obtain ⟨property, read⟩ := propertyAt_returns now
        cases index with
        | zero =>
          cases here
          exact .inl bad
        | succ index =>
          refine .inr ⟨property, read, ih.mpr ⟨index, other, here, ?_⟩⟩
          rwa [Nat.add_assoc, Nat.add_comm 1]

theorem putKey_returns {typeNames : List (Option String)} {start : Nat}
    (good : ¬ Faults (putKey columns key typeNames start out)) :
    ∃ rows, putKey columns key typeNames start out = .ok rows := by
  induction typeNames generalizing start out with
  | nil => exact ⟨out, rfl⟩
  | cons typeName typeNames ih =>
    rw [putKey] at good ⊢
    by_cases now : Faults (propertyAt columns key typeName start)
    · exact (good (faults_bind.mpr (.inl now))).elim
    · obtain ⟨property, read⟩ := propertyAt_returns now
      rw [read, ok_bind] at good ⊢
      exact ih good

/-- Some row of these columns has a `bytes` property whose text is cut inside a character. -/
def HoldsBadBytes (columns : Columns) (entries : List (String × Column)) : Prop :=
  ∃ name key typeNames index typeName, (name, .text typeNames) ∈ entries ∧ typeKey name = some key ∧
    typeNames[index]? = some typeName ∧ BadBytes columns key typeName index

theorem faults_putKeys {entries : List (String × Column)} :
    Faults (putKeys columns entries out) ↔ HoldsBadBytes columns entries := by
  induction entries generalizing out with
  | nil => simp [putKeys, HoldsBadBytes]
  | cons entry entries ih =>
    obtain ⟨name, column⟩ := entry
    have skip : (∀ key typeNames, ¬ (typeKey name = some key ∧ column = .text typeNames)) →
        (HoldsBadBytes columns ((name, column) :: entries) ↔ HoldsBadBytes columns entries) := by
      intro other
      constructor
      · rintro ⟨name', key, typeNames, index, typeName, inside, kind, rest⟩
        rcases mem_cons.mp inside with same | inside
        · obtain ⟨rfl, rfl⟩ := Prod.mk.injEq .. ▸ same
          exact (other key typeNames ⟨kind, rfl⟩).elim
        · exact ⟨name', key, typeNames, index, typeName, inside, kind, rest⟩
      · rintro ⟨name', key, typeNames, index, typeName, inside, rest⟩
        exact ⟨name', key, typeNames, index, typeName, mem_cons_of_mem _ inside, rest⟩
    unfold putKeys
    split
    · rename_i key typeNames kind
      rw [faults_bind, faults_putKey]
      constructor
      · rintro (⟨index, typeName, here, bad⟩ | ⟨rows, -, stops⟩)
        · exact ⟨name, key, typeNames, index, typeName, mem_cons_self, kind, here,
            by simpa using bad⟩
        · obtain ⟨name', key', typeNames', index, typeName, inside, rest⟩ := ih.mp stops
          exact ⟨name', key', typeNames', index, typeName, mem_cons_of_mem _ inside, rest⟩
      · rintro ⟨name', key', typeNames', index, typeName, inside, kind', here, bad⟩
        by_cases now : Faults (putKey columns key typeNames 0 out)
        · exact .inl (faults_putKey.mp now)
        · obtain ⟨rows, read⟩ := putKey_returns now
          rcases mem_cons.mp inside with same | inside
          · simp only [Prod.mk.injEq, Column.text.injEq] at same
            obtain ⟨rfl, rfl⟩ := same
            obtain rfl := Option.some.inj (kind.symm.trans kind')
            exact .inl ⟨index, typeName, here, by simpa using bad⟩
          · exact .inr ⟨rows, read, ih.mpr ⟨name', key', typeNames', index, typeName, inside, kind',
              here, bad⟩⟩
    · rename_i other
      rw [skip fun key typeNames both => other key typeNames both.1 both.2]
      exact ih

end

section
variable {crates : Crates} {segment : Segment} {verify : Bool}

/-- A page of a column wraps, and the pages before it read and join. -/
def ColumnStops (crates : Crates) (segment : Segment) (verify : Bool) (held : Option Column)
    (refs : List PageRef) : Prop :=
  ∃ before ref after, refs = before ++ ref :: after ∧
    (∃ column, mergePages crates segment verify held before = .ok column) ∧
      WrapsAt crates segment.bytes verify ref.offset

theorem faults_mergePages (small : segment.bytes.length < 2 ^ 63) {held : Option Column}
    {refs : List PageRef} : Faults (mergePages crates segment verify held refs) ↔
      ColumnStops crates segment verify held refs := by
  induction refs generalizing held with
  | nil => simp [mergePages, ColumnStops]
  | cons ref refs ih =>
    rw [mergePages, faults_bind, faults_readPage small]
    constructor
    · rintro (wraps | ⟨page, read, stops⟩)
      · exact ⟨[], ref, refs, rfl, ⟨held, rfl⟩, wraps⟩
      · rcases faults_bind.mp stops with none | ⟨column, join, stops⟩
        · exact (not_faults_lift _ none).elim
        · obtain ⟨before, ref', after, rfl, ⟨merged, more⟩, wraps⟩ := ih.mp stops
          refine ⟨ref :: before, ref', after, rfl, ⟨merged, ?_⟩, wraps⟩
          rw [mergePages, read, ok_bind, join, ok_bind, more]
    · rintro ⟨before, ref', after, split, ⟨merged, more⟩, wraps⟩
      cases before with
      | nil =>
        obtain ⟨rfl, rfl⟩ := List.cons.inj split
        exact .inl wraps
      | cons first before =>
        obtain ⟨rfl, rfl⟩ := List.cons.inj split
        obtain ⟨page, read, rest⟩ := bind_eq_ok.mp more
        obtain ⟨column, join, rest⟩ := bind_eq_ok.mp rest
        exact .inr ⟨page, read, faults_bind.mpr (.inr ⟨column, join,
          ih.mpr ⟨before, ref', after, rfl, ⟨merged, rest⟩, wraps⟩⟩)⟩

/-- A column of a group stops the read, and the columns before it read. -/
def PagesStop (crates : Crates) (segment : Segment) (verify : Bool) (columns : Columns)
    (entries : List (String × List PageRef)) : Prop :=
  ∃ before name refs after, entries = before ++ (name, refs) :: after ∧
    (∃ found, readColumns crates segment verify before columns = .ok found) ∧
      ColumnStops crates segment verify none refs

theorem faults_readColumns (small : segment.bytes.length < 2 ^ 63) {columns : Columns}
    {entries : List (String × List PageRef)} : Faults (readColumns crates segment verify entries columns) ↔
      PagesStop crates segment verify columns entries := by
  induction entries generalizing columns with
  | nil => simp [readColumns, PagesStop]
  | cons entry entries ih =>
    obtain ⟨name, refs⟩ := entry
    rw [readColumns, faults_bind, faults_mergePages small]
    constructor
    · rintro (stops | ⟨merged, read, stops⟩)
      · exact ⟨[], name, refs, entries, rfl, ⟨columns, rfl⟩, stops⟩
      · cases merged with
        | none =>
          obtain ⟨before, name', refs', after, rfl, ⟨found, more⟩, wraps⟩ := ih.mp stops
          refine ⟨(name, refs) :: before, name', refs', after, rfl, ⟨found, ?_⟩, wraps⟩
          rw [readColumns, read, ok_bind]
          exact more
        | some column =>
          obtain ⟨before, name', refs', after, rfl, ⟨found, more⟩, wraps⟩ := ih.mp stops
          refine ⟨(name, refs) :: before, name', refs', after, rfl, ⟨found, ?_⟩, wraps⟩
          rw [readColumns, read, ok_bind]
          exact more
    · rintro ⟨before, name', refs', after, split, ⟨found, more⟩, wraps⟩
      cases before with
      | nil =>
        simp only [nil_append, List.cons.injEq, Prod.mk.injEq] at split
        obtain ⟨⟨rfl, rfl⟩, rfl⟩ := split
        exact .inl wraps
      | cons first before =>
        obtain ⟨rfl, rfl⟩ := List.cons.inj split
        obtain ⟨merged, read, rest⟩ := bind_eq_ok.mp more
        refine .inr ⟨merged, read, ?_⟩
        cases merged with
        | none => exact ih.mpr ⟨before, name', refs', after, rfl, ⟨found, rest⟩, wraps⟩
        | some column => exact ih.mpr ⟨before, name', refs', after, rfl, ⟨found, rest⟩, wraps⟩

/-- A row group stops the read: at a page, or at a property behind its pages. -/
def GroupStops (crates : Crates) (segment : Segment) (verify : Bool) (group : RowGroup) : Prop :=
  PagesStop crates segment verify ∅ group.pages.entries ∨
    ∃ columns, readColumns crates segment verify group.pages.entries ∅ = .ok columns ∧
      HoldsBadBytes columns columns.entries

variable {group : RowGroup}

theorem faults_rowGroup (small : segment.bytes.length < 2 ^ 63) (backed : group.rows ≤ 8 * segment.bytes.length) :
    Faults (rowGroup crates segment verify group) ↔ GroupStops crates segment verify group := by
  have rebuild : ∀ columns : Columns, Faults (toRows columns group.rows segment.header.workspaceId
      segment.header.projectId segment.bytes.length) ↔ HoldsBadBytes columns columns.entries := by
    intro columns
    rw [toRows, allocate_of_le backed, ok_bind, faults_putKeys]
  rw [rowGroup, faults_bind, faults_readColumns small]
  simp only [rebuild, GroupStops]

def GroupsStop (crates : Crates) (segment : Segment) (verify : Bool) (groups : List RowGroup) : Prop :=
  ∃ before group after, groups = before ++ group :: after ∧
    (∃ rows, groupRows crates segment verify before = .ok rows) ∧ GroupStops crates segment verify group

theorem faults_groupRows (small : segment.bytes.length < 2 ^ 63) {groups : List RowGroup}
    (backed : ∀ group ∈ groups, group.rows ≤ 8 * segment.bytes.length) :
    Faults (groupRows crates segment verify groups) ↔ GroupsStop crates segment verify groups := by
  induction groups with
  | nil => simp [groupRows, GroupsStop]
  | cons group groups ih =>
    obtain ⟨here, later⟩ := forall_mem_cons.mp backed
    rw [groupRows, faults_bind, faults_rowGroup small here]
    constructor
    · rintro (stops | ⟨rows, read, stops⟩)
      · exact ⟨[], group, groups, rfl, ⟨[], rfl⟩, stops⟩
      · rcases faults_bind.mp stops with stops | ⟨more, -, none⟩
        · obtain ⟨before, group', after, rfl, ⟨found, more⟩, bad⟩ := (ih later).mp stops
          refine ⟨group :: before, group', after, rfl, ⟨rows ++ found, ?_⟩, bad⟩
          rw [groupRows, read, ok_bind, more, ok_bind]
        · exact (not_faults_ok _ none).elim
    · rintro ⟨before, group', after, split, ⟨found, read⟩, bad⟩
      cases before with
      | nil =>
        obtain ⟨rfl, rfl⟩ := List.cons.inj split
        exact .inl bad
      | cons first before =>
        obtain ⟨rfl, rfl⟩ := List.cons.inj split
        obtain ⟨rows, first, rest⟩ := bind_eq_ok.mp read
        obtain ⟨more, rest, -⟩ := bind_eq_ok.mp rest
        exact .inr ⟨rows, first, faults_bind.mpr (.inl ((ih later).mpr
          ⟨before, group', after, rfl, ⟨more, rest⟩, bad⟩))⟩

theorem field_typed {value found : Value} {name : String} (typed : value.Typed)
    (here : value.field name = some found) : found.Typed := by
  cases value with
  | map entries =>
    obtain ⟨entry, there, rfl⟩ := Option.map_eq_some_iff.mp here
    exact (typed.2.2.mem entry (mem_of_find?_eq_some there)).2
  | _ => simp [Value.field, Value.asMap] at here

variable {value : Value}

theorem rows_lt_of_groupFromCbor (typed : value.Typed)
    (read : groupFromCbor value = .ok group) : group.rows < 2 ^ 64 := by
  unfold groupFromCbor at read
  split at read
  · cases read
  · rename_i entries _
    cases pages : entries.mapM refsFromCbor with
    | error e => simp [pages, bind, Except.bind] at read
    | ok found =>
      simp only [pages, bind, Except.bind, Except.ok.injEq] at read
      obtain rfl := read
      dsimp only
      cases here : value.field "rows" with
      | none => simp
      | some rows =>
        have known := field_typed typed here
        cases rows with
        | unsigned v => exact known
        | _ => simp [Value.asUnsigned]

theorem mem_of_mapM_ok {α β ε : Type} {f : α → Except ε β} {xs : List α} {ys : List β}
    (mapped : xs.mapM f = .ok ys) : ∀ y ∈ ys, ∃ x ∈ xs, f x = .ok y := by
  induction xs generalizing ys with
  | nil =>
    obtain rfl : [] = ys := Except.ok.inj mapped
    simp
  | cons x xs ih =>
    rw [mapM_cons] at mapped
    cases first : f x with
    | error e => simp [first, bind, Except.bind] at mapped
    | ok y =>
      cases rest : xs.mapM f with
      | error e => simp [first, rest, bind, Except.bind] at mapped
      | ok zs =>
        simp only [first, rest, bind, Except.bind, pure, Except.pure, Except.ok.injEq] at mapped
        obtain rfl := mapped
        refine forall_mem_cons.mpr ⟨⟨x, mem_cons_self, first⟩, fun z inside => ?_⟩
        obtain ⟨w, there, image⟩ := ih rest z inside
        exact ⟨w, mem_cons_of_mem _ there, image⟩

theorem rows_lt_of_footerFromCbor (typed : value.Typed) {footer : Footer}
    (read : footerFromCbor value = .ok footer) : ∀ group ∈ footer.rowGroups, group.rows < 2 ^ 64 := by
  unfold footerFromCbor at read
  split at read
  · cases read
  · rename_i groups listed
    obtain ⟨array, here, items⟩ := Option.bind_eq_some_iff.mp listed
    have known := field_typed typed here
    cases array with
    | array held =>
      obtain rfl : held = groups := Option.some.inj items
      cases mapped : held.mapM groupFromCbor with
      | error e => simp [mapped, bind, Except.bind] at read
      | ok rowGroups =>
        simp only [mapped, bind, Except.bind] at read
        split at read
        · cases read
        · split at read
          · cases read
          · cases read
            intro group inside
            obtain ⟨item, there, image⟩ := mem_of_mapM_ok mapped group inside
            exact rows_lt_of_groupFromCbor (known.2.mem item there) image
    | _ => simp [Value.asArray] at items

variable {bytes : Bytes}

theorem decodePart_ok (small : bytes.length < 2 ^ 63) {what : String}
    (read : decodePart what bytes = .ok value) : decode bytes = .ok value := by
  rw [decodePart, decodeChecked_eq small] at read
  cases outcome : decode bytes with
  | error e => simp [outcome, fail] at read
  | ok found => simpa [outcome] using read

theorem openFooter_rows {crates : Crates} (small : bytes.length < 2 ^ 63) {verify : Bool}
    {footer : Footer} (read : openFooter crates bytes verify = .ok footer) :
    ∀ group ∈ footer.rowGroups, group.rows < 2 ^ 64 := by
  obtain ⟨_, _, read⟩ := bind_eq_ok.mp read
  obtain ⟨_, _, read⟩ := bind_eq_ok.mp read
  obtain ⟨_, _, read⟩ := bind_eq_ok.mp read
  obtain ⟨_, _, read⟩ := bind_eq_ok.mp read
  obtain ⟨_, _, read⟩ := bind_eq_ok.mp read
  obtain ⟨_, _, read⟩ := bind_eq_ok.mp read
  obtain ⟨part, there, read⟩ := bind_eq_ok.mp read
  have room := slice_inside (lift_eq_ok.mp there)
  split at read
  · cases read
  · obtain ⟨value, decoded, read⟩ := bind_eq_ok.mp read
    have short : part.length < 2 ^ 63 := by omega
    exact rows_lt_of_footerFromCbor (decode_typed short (decodePart_ok short decoded)) (lift_eq_ok.mp read)

theorem rows_le_listedRows {groups : List RowGroup} (inside : group ∈ groups)
    (word : group.rows < 2 ^ 64) : group.rows ≤ listedRows groups := by
  have grows : ∀ (groups : List RowGroup) (total : Nat), total < 2 ^ 64 → total ≤
      groups.foldl (fun total group => min (total + group.rows) (2 ^ 64 - 1)) total := by
    intro groups
    induction groups with
    | nil => intro total _; exact le_refl _
    | cons g groups ih =>
      intro total low
      refine le_trans ?_ (ih (min (total + g.rows) (2 ^ 64 - 1)) (by omega))
      omega
  have holds : ∀ (groups : List RowGroup) (total : Nat), group ∈ groups → total < 2 ^ 64 → group.rows ≤
      groups.foldl (fun total group => min (total + group.rows) (2 ^ 64 - 1)) total := by
    intro groups
    induction groups with
    | nil => intro total none; cases none
    | cons g groups ih =>
      intro total inside low
      rcases mem_cons.mp inside with rfl | inside
      · refine le_trans ?_ (grows groups (min (total + group.rows) (2 ^ 64 - 1)) (by omega))
        omega
      · exact ih (min (total + g.rows) (2 ^ 64 - 1)) inside (by omega)
  exact holds groups 0 inside (by omega)

/-- Reading the rows of a file stops the process exactly where its description claims more
rows than bits, or a row group stops it. -/
theorem faults_rows (small : bytes.length < 2 ^ 63) {first : Bool}
    (opened : openSegment crates bytes first = .ok segment) :
    Faults (segment.rows crates verify) ↔ 8 * bytes.length < segment.header.rowCount ∨
      GroupsStop crates segment verify segment.footer.rowGroups := by
  obtain ⟨rfl, agree, directory⟩ := openSegment_ok opened
  rw [Segment.rows, faults_bind, faults_allocate]
  by_cases room : 8 * segment.bytes.length < segment.header.rowCount
  · exact iff_of_true (.inl room) (.inl room)
  · have backed : ∀ group ∈ segment.footer.rowGroups, group.rows ≤ 8 * segment.bytes.length := by
      intro group inside
      have word := openFooter_rows small directory group inside
      have listed := rows_le_listedRows inside word
      omega
    rw [allocate_of_le (by omega)]
    simp only [room, false_or, true_and, exists_const, faults_groupRows small backed]

end

section
variable (crates : Crates) (bytes : Bytes)

/-- Opening these bytes, and reading the rows and asking the indexes of what they open to,
returns. -/
def CannotStop : Prop :=
  ∀ first, ¬ Faults (openSegment crates bytes first) ∧
    ∀ segment, openSegment crates bytes first = .ok segment →
      (∀ verify, ¬ Faults (segment.rows crates verify)) ∧
        ∀ verify column value, ¬ Faults (segment.mayHold crates verify column value)

/-- The description claims at most a row for each bit of the file, no row group holds a text
page that wraps or a `bytes` property that is cut inside a character where the reader gets to
it, and no index holds a filter with no word where a value gets to it. -/
def WellCounted : Prop :=
  ∀ first segment, openSegment crates bytes first = .ok segment →
    segment.header.rowCount ≤ 8 * bytes.length ∧
      (∀ verify, ¬ GroupsStop crates segment verify segment.footer.rowGroups) ∧
        ∀ verify column filters, segment.index crates verify column = .ok (some (.blockFilter filters)) →
          ∀ value, ¬ EmptyFilter crates.checksum value filters

/-- A stored file leaves the process running exactly where its counts are backed. -/
theorem stored_file_cannot_stop (small : bytes.length < 2 ^ 63) :
    CannotStop crates bytes ↔ WellCounted crates bytes := by
  constructor
  · intro safe first segment opened
    obtain ⟨-, after⟩ := safe first
    obtain ⟨rows, lookups⟩ := after segment opened
    have kept := (openSegment_ok opened).1
    refine ⟨?_, ?_, ?_⟩
    · by_contra wide
      exact rows true ((faults_rows small opened).mpr (.inl (by omega)))
    · intro verify stops
      exact rows verify ((faults_rows small opened).mpr (.inr stops))
    · intro verify column filters index value empty
      exact lookups verify column value ((faults_mayHold (kept ▸ small)).mpr ⟨filters, index, empty⟩)
  · intro counted first
    refine ⟨not_faults_openSegment small first, ?_⟩
    intro segment opened
    obtain ⟨room, groups, filters⟩ := counted first segment opened
    have kept := (openSegment_ok opened).1
    constructor
    · intro verify stops
      rcases (faults_rows small opened).mp stops with wide | bad
      · omega
      · exact groups verify bad
    · intro verify column value stops
      obtain ⟨held, index, empty⟩ := (faults_mayHold (kept ▸ small)).mp stops
      exact filters verify column held index value empty

end

/-- A file that describes some rows and lists them in one row group that has no page. -/
def bareHeader (rows : Nat) : Header :=
  { segmentId := .ofBytes (List.replicate 16 1), tabletId := 1, virtualShard := 0
    workspaceId := .ofBytes (List.replicate 16 2), projectId := .ofBytes (List.replicate 16 3)
    kinds := [], retentionClass := "detailed", occurredRange := (0, 0), receivedRange := (0, 0)
    committedRange := (0, 0), logRange := (0, 0), rowCount := rows, rowGroupCount := 1
    uncompressedBytes := 0, compressedBytes := 0, projectorVersion := 1 }

def bareFile (rows : Nat) : Bytes :=
  let description := encode (headerToCbor (bareHeader rows))
  let directory := encode (footerToCbor ⟨[⟨0, rows, ∅⟩], ∅, List.replicate 32 0, none⟩)
  magic ++ leBytes 2 formatMajor ++ leBytes 2 formatMinor ++ leBytes 4 description.length ++
    leBytes 8 prologueBytes ++ List.replicate 40 0 ++ description ++ directory ++
    leBytes 8 (prologueBytes + description.length) ++ leBytes 4 directory.length ++ List.replicate 12 0 ++
    trailerMagic

/-- Libraries of which only the checksum is asked, which is zero. -/
def zeroCrates : Crates := ⟨fun _ => 0, fun _ _ => none, fun _ _ => none, id, fun _ => "", fun _ _ rows => rows⟩

/-- What a check of an open file says, where its directory is not verified or its checksum is
zero. -/
def opensTo (bytes : Bytes) (first : Bool) (holds : Segment → Bool) : Bool :=
  match openSegment zeroCrates bytes first with
  | .ok segment => holds segment
  | .error _ => false

theorem openSegment_unverified (crates crates' : Crates) (bytes : Bytes) :
    openSegment crates bytes false = openSegment crates' bytes false := by
  have footer : openFooter crates bytes false = openFooter crates' bytes false := by
    simp only [openFooter, Bool.false_eq_true, false_and, if_false]
  simp only [openSegment, footer]

/-- Two rows without a page are read, and every index says maybe. -/
theorem stored_file_cannot_stop_two : CannotStop zeroCrates (bareFile 2) := by
  have small : (bareFile 2).length < 2 ^ 63 := by decide +kernel
  refine (stored_file_cannot_stop zeroCrates _ small).mpr fun first segment opened => ?_
  have checked : opensTo (bareFile 2) first (fun segment => segment.header.rowCount ≤ 8 * (bareFile 2).length ∧
      segment.footer.rowGroups.all (fun group => group.pages.entries.isEmpty) ∧
        segment.footer.indexes.entries.isEmpty) = true := by
    cases first <;> decide +kernel
  rw [opensTo, opened] at checked
  obtain ⟨room, pages, indexes⟩ := of_decide_eq_true checked
  refine ⟨room, ?_, ?_⟩
  · rintro verify ⟨before, group, after, split, -, stops⟩
    have inside : group ∈ segment.footer.rowGroups := by simp [split]
    have none : group.pages.entries = [] := by simpa using List.all_eq_true.mp pages group inside
    rw [GroupStops, none] at stops
    rcases stops with ⟨before, name, refs, after, split, -⟩ | ⟨columns, read, bad⟩
    · simp at split
    · cases read
      simp [HoldsBadBytes] at bad
  · intro verify column filters held
    have none : segment.footer.indexes.get? column = .none := by
      simp [OrderedMap.get?, List.isEmpty_iff.mp indexes]
    rw [Segment.index, none] at held
    cases held

/-- A small file that claims a row for each of 2^40 numbers opens, and reading it makes room
for all of them, whatever the libraries answer. -/
theorem hostile_count_stops : ¬ ∃ crates, CannotStop crates (bareFile (2 ^ 40)) := by
  rintro ⟨crates, safe⟩
  have small : (bareFile (2 ^ 40)).length < 2 ^ 63 := by decide +kernel
  have wide : opensTo (bareFile (2 ^ 40)) false
      (fun segment => 8 * (bareFile (2 ^ 40)).length < segment.header.rowCount) = true := by
    decide +kernel
  rw [opensTo, openSegment_unverified zeroCrates crates] at wide
  cases opened : openSegment crates (bareFile (2 ^ 40)) false with
  | error e =>
    rw [opened] at wide
    cases wide
  | ok segment =>
    rw [opened] at wide
    have stops : Faults (segment.rows crates true) := (faults_rows small opened).mpr (.inl (of_decide_eq_true wide))
    exact ((safe false).2 segment opened).1 true stops

end TallyOwl.SegmentFormat
