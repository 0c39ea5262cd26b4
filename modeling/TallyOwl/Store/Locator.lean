import TallyOwl.Lib.OrderedMap
import TallyOwl.Lib.Sorted
import TallyOwl.Store.Format
import TallyOwl.Store.Row

/-! The locator (`locator.rs`): for each day, which segments may hold a value of an
indexed column. A run is a list of fingerprints; a stored run is its bytes. The
fingerprint function is the one of an outside crate and is a parameter here. -/
open List TallyOwl.Lib.OrderedMap

namespace TallyOwl.Locate
open Lib Format

def bucketMs : Int := 86400000

def bucketOf (moment : Int) : Int := moment - moment % bucketMs

/-- `as u64` of an `i64`. -/
def asU64 (n : Int) : Nat := (n % 2 ^ 64).toNat

/-- `as i64` of a `u64`. -/
def asI64 (n : Nat) : Int := if n < 2 ^ 63 then n else n - 2 ^ 64

/-- The numbers an `i64` holds. -/
def InI64 (n : Int) : Prop := -2 ^ 63 ≤ n ∧ n < 2 ^ 63

instance (n : Int) : Decidable (InI64 n) := inferInstanceAs (Decidable (_ ∧ _))

/-- The number an `i64` holds after it wrapped. -/
def wrapI64 (n : Int) : Int := n.bmod (2 ^ 64)

theorem inI64_wrapI64 (n : Int) : InI64 (wrapI64 n) := by
  have low := @Int.le_bmod n (2 ^ 64) (by decide)
  have high := @Int.bmod_lt n (2 ^ 64) (by decide)
  unfold InI64 wrapI64
  norm_num at low high ⊢
  omega

theorem asI64_asU64 {n : Int} (fits : InI64 n) : asI64 (asU64 n) = n := by
  obtain ⟨low, high⟩ := fits
  unfold asI64 asU64
  split <;> omega

theorem asU64_lt (n : Int) : asU64 n < 2 ^ 64 := by
  unfold asU64
  omega

structure Entry where
  field : UInt64
  value : UInt64
  segment : Id
  deriving DecidableEq

def Entry.key (e : Entry) : ℕ ×ₗ ℕ := toLex (e.field.toNat, e.value.toNat)

def Entry.rank (e : Entry) : ℕ ×ₗ (ℕ ×ₗ Id) :=
  toLex (e.field.toNat, toLex (e.value.toNat, e.segment))

theorem Entry.key_le_of_rank_le {a b : Entry} (ordered : a.rank ≤ b.rank) : a.key ≤ b.key := by
  unfold Entry.rank at ordered
  unfold Entry.key
  rw [Prod.Lex.toLex_le_toLex] at ordered ⊢
  rcases ordered with less | ⟨same, rest⟩
  · exact .inl less
  · refine .inr ⟨same, ?_⟩
    rw [Prod.Lex.toLex_le_toLex] at rest
    rcases rest with less | ⟨equal, -⟩
    · exact le_of_lt less
    · exact le_of_eq equal

structure LocatorRun where
  bucket : Int
  entries : List Entry
  deriving DecidableEq

namespace LocatorRun

def new (bucket : Int) : LocatorRun := ⟨bucket, []⟩

def sealed (run : LocatorRun) : LocatorRun :=
  { run with entries := sortDedup (fun a b => a.rank ≤ b.rank) run.entries }

/-- Every segment a sealed run says may hold the value. `partition_point` finds the
start of the stretch. -/
def candidates (run : LocatorRun) (field value : UInt64) : List Id :=
  (stretch Entry.key (toLex (field.toNat, value.toNat)) run.entries).map Entry.segment

def retainSegments (run : LocatorRun) (live : Id → Bool) : LocatorRun :=
  { run with entries := run.entries.filter fun e => live e.segment }

def merge (run other : LocatorRun) : LocatorRun :=
  { run with entries := run.entries ++ other.entries }.sealed

def encodeEntry (e : Entry) : Bytes :=
  putU64 e.field.toNat ++ (putU64 e.value.toNat ++ e.segment.bytes)

def encode (run : LocatorRun) : Bytes :=
  putU64 (asU64 run.bucket) ++ (putU32 run.entries.length ++ run.entries.flatMap encodeEntry)

def decodeEntries (bytes : Bytes) : (count start : Nat) → Except FormatError (List Entry)
  | 0, _ => .ok []
  | count + 1, start => do
      let segment ← slice bytes (start + 16) 16
      let field ← getU64 bytes start
      let value ← getU64 bytes (start + 8)
      let rest ← decodeEntries bytes count (start + 32)
      .ok (⟨.ofNat field, .ofNat value, Id.ofBytes segment⟩ :: rest)

def decode (bytes : Bytes) : Except FormatError LocatorRun := do
  let bucket ← getU64 bytes 0
  let count ← getU32 bytes 8
  let _ ← slice bytes 12 (count * 32)
  let entries ← decodeEntries bytes count 12
  .ok ⟨asI64 bucket, entries⟩

variable {run : LocatorRun}

@[simp] theorem sealed_bucket (run : LocatorRun) : run.sealed.bucket = run.bucket := rfl

@[simp] theorem mem_sealed {e : Entry} :
    e ∈ run.sealed.entries ↔ e ∈ run.entries := mem_sortDedup

theorem sorted_sealed (run : LocatorRun) : run.sealed.entries.Pairwise fun a b => a.key ≤ b.key := by
  have total : Std.Total fun a b : Entry => a.rank ≤ b.rank := ⟨fun a b => le_total _ _⟩
  have trans : IsTrans Entry fun a b => a.rank ≤ b.rank := ⟨fun a b c => le_trans⟩
  exact (pairwise_sortDedup run.entries).imp Entry.key_le_of_rank_le

theorem mem_candidates_sealed {field value : UInt64} {id : Id} :
    id ∈ run.sealed.candidates field value ↔ ⟨field, value, id⟩ ∈ run.entries := by
  unfold candidates
  rw [mem_map]
  constructor
  · rintro ⟨e, inside, rfl⟩
    obtain ⟨there, same⟩ := (mem_stretch run.sorted_sealed).mp inside
    have fields : e.field.toNat = field.toNat ∧ e.value.toNat = value.toNat := by
      simpa [Entry.key] using same
    obtain rfl : e.field = field := UInt64.toNat_inj.mp fields.1
    obtain rfl : e.value = value := UInt64.toNat_inj.mp fields.2
    exact mem_sealed.mp there
  · intro inside
    exact ⟨_, (mem_stretch run.sorted_sealed).mpr ⟨mem_sealed.mpr inside, rfl⟩, rfl⟩

@[simp] theorem length_encodeEntry (e : Entry) : (encodeEntry e).length = 32 := by
  simp [encodeEntry]

theorem length_encodeEntries (es : List Entry) : (es.flatMap encodeEntry).length = es.length * 32 := by
  induction es with
  | nil => rfl
  | cons e es ih =>
    simp only [flatMap_cons, length_append, length_encodeEntry, ih, length_cons]
    omega

theorem length_encode (run : LocatorRun) : run.encode.length = 12 + run.entries.length * 32 := by
  simp only [encode, length_append, length_putU64, length_putU32, length_encodeEntries]
  omega

theorem decodeEntries_encoded (before after : Bytes) (es : List Entry) :
    decodeEntries (before ++ (es.flatMap encodeEntry ++ after)) es.length before.length = .ok es := by
  induction es generalizing before with
  | nil => rfl
  | cons e es ih =>
    have rest := ih (before ++ encodeEntry e)
    have field := getU64_append before (putU64 e.value.toNat ++ (e.segment.bytes ++
      (es.flatMap encodeEntry ++ after))) e.field.toNat (UInt64.toNat_lt _)
    have value := getU64_append (before ++ putU64 e.field.toNat) (e.segment.bytes ++
      (es.flatMap encodeEntry ++ after)) e.value.toNat (UInt64.toNat_lt _)
    have segment := slice_append (before ++ putU64 e.field.toNat ++ putU64 e.value.toNat)
      e.segment.bytes (es.flatMap encodeEntry ++ after)
    simp only [append_assoc, length_append, length_putU64, Id.length_bytes,
      length_encodeEntry, Nat.reduceAdd] at rest field value segment
    simp only [decodeEntries, length_cons, flatMap_cons, append_assoc, encodeEntry]
    rw [encodeEntry] at rest
    simp only [append_assoc] at rest
    simp [field, value, segment, rest, bind, Except.bind]

theorem decode_encode (bucket : InI64 run.bucket)
    (short : run.entries.length < 2 ^ 32) : decode run.encode = .ok run := by
  have first := getU64_append [] (putU32 run.entries.length ++ run.entries.flatMap encodeEntry)
    (asU64 run.bucket) (asU64_lt _)
  have second := getU32_append (putU64 (asU64 run.bucket)) (run.entries.flatMap encodeEntry)
    run.entries.length short
  have entries := decodeEntries_encoded (putU64 (asU64 run.bucket) ++ putU32 run.entries.length) []
    run.entries
  have whole := slice_append (putU64 (asU64 run.bucket) ++ putU32 run.entries.length)
    (run.entries.flatMap encodeEntry) []
  simp only [nil_append, length_nil, length_putU64, length_putU32, append_nil,
    length_append, append_assoc, Nat.reduceAdd, length_encodeEntries]
    at first second entries whole
  rw [← encode] at first second entries whole
  rw [decode, first, second]
  simp only [bind, Except.bind, whole, entries, asI64_asU64 bucket]

end LocatorRun

structure Locator where
  runs : OrderedMap Int LocatorRun

namespace Locator

def new : Locator := ⟨∅⟩

def sealed (locator : Locator) : Locator := ⟨locator.runs.mapValues fun _ run => run.sealed⟩

def combine (runs : OrderedMap Int LocatorRun) (run : LocatorRun) : OrderedMap Int LocatorRun :=
  match runs.get? run.bucket with
  | none => runs.insert run.bucket run
  | some held => runs.insert run.bucket { held with entries := held.entries ++ run.entries }

/-- Combine stored runs, several for a bucket, sealing each bucket once. -/
def fromAllRuns (runs : List LocatorRun) : Locator := sealed ⟨runs.foldl combine ∅⟩

def retainSegments (locator : Locator) (live : Id → Bool) : Locator :=
  ⟨(locator.runs.mapValues fun _ run => run.retainSegments live).filter
    fun _ run => run.entries ≠ []⟩

def overlapping (locator : Locator) : Option (Int × Int) → List LocatorRun
  | none => locator.runs.values
  | some (start, stop) =>
      locator.runs.values.filter fun run => bucketOf start ≤ run.bucket ∧ run.bucket < stop

section
variable (hash : Bytes → UInt64)

def fieldOf (column : String) : UInt64 := hash (textBytes column)

def entryOf (column : String) (value : Bytes) (segment : Id) : Entry :=
  ⟨fieldOf hash column, hash value, segment⟩

def add (locator : Locator) (column : String) (value : Bytes) (moment : Int) (segment : Id) :
    Locator :=
  let bucket := bucketOf moment
  let run := (locator.runs.get? bucket).getD (.new bucket)
  ⟨locator.runs.insert bucket
    { run with entries := run.entries ++ [entryOf hash column value segment] }⟩

/-- Every segment that may hold the value, over the runs a time range overlaps. -/
def candidates (locator : Locator) (column : String) (value : Bytes)
    (range : Option (Int × Int)) : List Id :=
  sortDedup (· ≤ ·) ((locator.overlapping range).flatMap fun run =>
    run.candidates (fieldOf hash column) (hash value))

end

def Holds (locator : Locator) (e : Entry) : Prop :=
  ∃ x ∈ locator.runs.entries, e ∈ x.2.entries

variable {e : Entry} {runs : OrderedMap Int LocatorRun}

theorem holds_combine {run : LocatorRun} : Holds ⟨combine runs run⟩ e ↔ Holds ⟨runs⟩ e ∨ e ∈ run.entries := by
  unfold combine
  split
  · rename_i absent
    constructor
    · rintro ⟨x, inside, there⟩
      rcases mem_insert.mp inside with rfl | ⟨old, -⟩
      · exact .inr there
      · exact .inl ⟨x, old, there⟩
    · rintro (⟨⟨bucket, held⟩, inside, there⟩ | there)
      · refine ⟨_, mem_insert.mpr (.inr ⟨inside, ?_⟩), there⟩
        rintro rfl
        exact get?_eq_none.mp absent _ inside
      · exact ⟨_, mem_insert.mpr (.inl rfl), there⟩
  · rename_i held found
    have there := get?_eq_some.mp found
    constructor
    · rintro ⟨x, inside, mem⟩
      rcases mem_insert.mp inside with rfl | ⟨old, -⟩
      · rcases mem_append.mp mem with before | added
        · exact .inl ⟨_, there, before⟩
        · exact .inr added
      · exact .inl ⟨x, old, mem⟩
    · rintro (⟨⟨bucket, other⟩, inside, mem⟩ | mem)
      · by_cases same : bucket = run.bucket
        · subst same
          obtain rfl := eq_of_mem inside there
          exact ⟨_, mem_insert.mpr (.inl rfl), mem_append_left _ mem⟩
        · exact ⟨_, mem_insert.mpr (.inr ⟨inside, same⟩), mem⟩
      · exact ⟨_, mem_insert.mpr (.inl rfl), mem_append_right _ mem⟩

theorem holds_foldl_combine {all : List LocatorRun} :
    Holds ⟨all.foldl combine runs⟩ e ↔ Holds ⟨runs⟩ e ∨ ∃ run ∈ all, e ∈ run.entries := by
  induction all generalizing runs with
  | nil => simp
  | cons run rest ih => rw [foldl_cons, ih, holds_combine]; simp [or_assoc]

variable {locator : Locator}

theorem holds_sealed : locator.sealed.Holds e ↔ locator.Holds e := by
  simp [Holds, sealed, OrderedMap.mapValues]

theorem holds_fromAllRuns {runs : List LocatorRun} : (fromAllRuns runs).Holds e ↔ ∃ run ∈ runs, e ∈ run.entries := by
  rw [fromAllRuns, holds_sealed, holds_foldl_combine]
  simp [Holds]

theorem holds_retainSegments {live : Id → Bool} :
    (locator.retainSegments live).Holds e ↔ locator.Holds e ∧ live e.segment = true := by
  constructor
  · rintro ⟨x, inside, there⟩
    obtain ⟨y, old, rfl⟩ := mem_map.mp (OrderedMap.mem_filter.mp inside).1
    obtain ⟨mem, kept⟩ := List.mem_filter.mp there
    exact ⟨⟨y, old, mem⟩, kept⟩
  · rintro ⟨⟨x, inside, there⟩, kept⟩
    have mem : e ∈ (x.2.retainSegments live).entries := List.mem_filter.mpr ⟨there, kept⟩
    refine ⟨(x.1, x.2.retainSegments live), OrderedMap.mem_filter.mpr
      ⟨mem_map.mpr ⟨x, inside, rfl⟩, ?_⟩, mem⟩
    simpa using ne_nil_of_mem mem

variable {hash : Bytes → UInt64} {column : String} {value : Bytes}

theorem holds_add {moment : Int} {segment : Id} : (locator.add hash column value moment segment).Holds e ↔
      locator.Holds e ∨ e = entryOf hash column value segment := by
  have same : locator.add hash column value moment segment =
      ⟨combine locator.runs ⟨bucketOf moment, [entryOf hash column value segment]⟩⟩ := by
    unfold add combine
    cases found : locator.runs.get? (bucketOf moment) <;> simp [found, LocatorRun.new]
  rw [same, holds_combine, mem_singleton]

theorem mem_candidates_sealed {id : Id} : id ∈ locator.sealed.candidates hash column value none ↔
      locator.Holds (entryOf hash column value id) := by
  unfold candidates
  rw [mem_sortDedup]
  simp only [overlapping, mem_flatMap, mem_values, sealed, OrderedMap.mapValues,
    mem_map, Holds]
  constructor
  · rintro ⟨run, ⟨k, ⟨x, inside, same⟩⟩, named⟩
    obtain rfl : x.2.sealed = run := congrArg Prod.snd same
    exact ⟨x, inside, LocatorRun.mem_candidates_sealed.mp named⟩
  · rintro ⟨x, inside, there⟩
    exact ⟨x.2.sealed, ⟨x.1, x, inside, rfl⟩, LocatorRun.mem_candidates_sealed.mpr there⟩

theorem mem_candidates_fromAllRuns {runs : List LocatorRun} {id : Id} :
    id ∈ (fromAllRuns runs).candidates hash column value none ↔
      ∃ run ∈ runs, entryOf hash column value id ∈ run.entries := by
  rw [fromAllRuns, mem_candidates_sealed, holds_foldl_combine]
  simp [Holds]

theorem bucket_foldl_combine {all : List LocatorRun}
    (aligned : ∀ x ∈ runs.entries, x.2.bucket = x.1) {x : Int × LocatorRun}
    (inside : x ∈ (all.foldl combine runs).entries) :
    x.2.bucket = x.1 ∧ ((∃ y ∈ runs.entries, y.1 = x.1) ∨ ∃ run ∈ all, run.bucket = x.1) := by
  induction all generalizing runs with
  | nil => exact ⟨aligned x inside, .inl ⟨x, inside, rfl⟩⟩
  | cons run rest ih =>
    have here : ∀ y ∈ (combine runs run).entries,
        y.2.bucket = y.1 ∧ ((∃ z ∈ runs.entries, z.1 = y.1) ∨ run.bucket = y.1) := by
      intro y there
      unfold combine at there
      split at there
      · rcases mem_insert.mp there with rfl | ⟨old, -⟩
        · exact ⟨rfl, .inr rfl⟩
        · exact ⟨aligned y old, .inl ⟨y, old, rfl⟩⟩
      · rename_i held found
        have own := aligned _ (get?_eq_some.mp found)
        rcases mem_insert.mp there with rfl | ⟨old, -⟩
        · exact ⟨own, .inr rfl⟩
        · exact ⟨aligned y old, .inl ⟨y, old, rfl⟩⟩
    obtain ⟨own, source⟩ := ih (fun y there => (here y there).1) inside
    refine ⟨own, ?_⟩
    rcases source with ⟨y, there, same⟩ | ⟨other, there, same⟩
    · rcases (here y there).2 with ⟨z, old, equal⟩ | equal
      · exact .inl ⟨z, old, equal.trans same⟩
      · exact .inr ⟨run, mem_cons_self, equal.trans same⟩
    · exact .inr ⟨other, mem_cons_of_mem _ there, same⟩

theorem bucket_fromAllRuns {runs : List LocatorRun} {x : Int × LocatorRun}
    (inside : x ∈ (fromAllRuns runs).runs.entries) : x.2.bucket = x.1 ∧ ∃ run ∈ runs, run.bucket = x.1 := by
  obtain ⟨y, old, rfl⟩ := mem_map.mp inside
  obtain ⟨own, source⟩ := bucket_foldl_combine (by simp) old
  exact ⟨own, by simpa using source⟩

end Locator
end TallyOwl.Locate
