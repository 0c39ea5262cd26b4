import TallyOwl.Store.Locator

/-! What a locator answers, however it was built (`locator.rs`). References are added under
the day of their moment; runs are sealed, merged, cut down to the live segments and sent
through their bytes. The answer of the result is compared with the references themselves. -/
open List TallyOwl.Lib.OrderedMap

namespace TallyOwl.Locate
open Lib Format

namespace LocatorRun

def InOrder (run : LocatorRun) : Prop := run.entries.Pairwise fun a b => a.rank < b.rank

instance (run : LocatorRun) : Decidable run.InOrder := inferInstanceAs (Decidable (List.Pairwise _ _))

end LocatorRun

namespace Locator

def fromRuns (runs : List LocatorRun) : Locator :=
  ⟨runs.foldl (fun held run => held.insert run.bucket run) ∅⟩

def mergeRun (runs : OrderedMap Int LocatorRun) (bucket : Int) (run : LocatorRun) :
    OrderedMap Int LocatorRun :=
  runs.insert bucket (((runs.get? bucket).getD (.new bucket)).merge run)

/-- Combine another locator's runs into this one, bucket by bucket. -/
def merge (locator other : Locator) : Locator :=
  ⟨other.runs.entries.foldl (fun runs x => mergeRun runs x.1 x.2) locator.runs⟩

def recode (locator : Locator) : Except FormatError Locator := do
  let runs ← locator.runs.values.mapM fun run => LocatorRun.decode run.encode
  .ok (fromRuns runs)

def InOrder (locator : Locator) : Prop := ∀ run ∈ locator.runs.values, run.InOrder

instance (locator : Locator) : Decidable locator.InOrder := inferInstanceAs (Decidable (∀ _ ∈ _, _))

end Locator

/-- One reference: a value of a column was in a segment at a moment. -/
structure Reference where
  column : String
  value : Bytes
  moment : Int
  segment : Id
  deriving DecidableEq

/-- A moment at least one bucket above the least `i64`. -/
def MomentFits (moment : Int) : Prop := -2 ^ 63 + bucketMs ≤ moment ∧ moment < 2 ^ 63

instance (moment : Int) : Decidable (MomentFits moment) := inferInstanceAs (Decidable (_ ∧ _))

/-- The bucket covers a moment of the range: it ends after the range starts, and starts before
the range ends. -/
def Overlaps (start stop bucket : Int) : Prop := start < bucket + bucketMs ∧ bucket < stop

instance (start stop bucket : Int) : Decidable (Overlaps start stop bucket) :=
  inferInstanceAs (Decidable (_ ∧ _))

section
variable (hash : Bytes → UInt64)

def Reference.entry (r : Reference) : Entry := Locator.entryOf hash r.column r.value r.segment

/-- A locator and the references that are in it, after some calls in some order. A run that is
stored fits the count before its entries. -/
inductive Built : Locator → List Reference → Prop where
  | new : Built .new []
  | add {locator added} (r : Reference) (built : Built locator added) (fits : MomentFits r.moment) :
      Built (locator.add hash r.column r.value r.moment r.segment) (added ++ [r])
  | sealed {locator added} (built : Built locator added) : Built locator.sealed added
  | merge {locator added other more} (built : Built locator added) (beside : Built other more) :
      Built (locator.merge other) (added ++ more)
  | retain {locator added} (live : Id → Bool) (built : Built locator added) :
      Built (locator.retainSegments live) (added.filter fun r => live r.segment)
  | recode {locator added back} (built : Built locator added)
      (few : ∀ run ∈ locator.runs.values, run.entries.length < 2 ^ 32)
      (read : locator.recode = .ok back) : Built back added

end

/-! Buckets. -/

theorem inI64_bucketOf {moment : Int} (fits : MomentFits moment) : InI64 (bucketOf moment) := by
  unfold MomentFits at fits
  unfold InI64 bucketOf
  unfold bucketMs at *
  omega

theorem bucketOf_mono {a b : Int} (ordered : a ≤ b) : bucketOf a ≤ bucketOf b := by
  unfold bucketOf bucketMs
  omega

theorem bucketOf_le (moment : Int) : bucketOf moment ≤ moment := by
  unfold bucketOf bucketMs
  omega

theorem overlaps_bucketOf {start stop moment : Int} : Overlaps start stop (bucketOf moment) ↔
      bucketOf start ≤ bucketOf moment ∧ bucketOf moment < stop := by
  unfold Overlaps bucketOf bucketMs
  omega

/-! Runs. -/

namespace LocatorRun

theorem InOrder.mem_candidates {run : LocatorRun} (ordered : run.InOrder) {field value : UInt64}
    {id : Id} : id ∈ run.candidates field value ↔ ⟨field, value, id⟩ ∈ run.entries := by
  have sorted : run.entries.Pairwise fun a b => a.key ≤ b.key :=
    ordered.imp fun less => Entry.key_le_of_rank_le (le_of_lt less)
  rw [candidates, mem_map]
  constructor
  · rintro ⟨e, inside, rfl⟩
    obtain ⟨there, same⟩ := (mem_stretch sorted).mp inside
    have keys : e.field.toNat = field.toNat ∧ e.value.toNat = value.toNat := by
      simpa [Entry.key] using same
    obtain rfl : e.field = field := UInt64.toNat_inj.mp keys.1
    obtain rfl : e.value = value := UInt64.toNat_inj.mp keys.2
    exact there
  · intro inside
    exact ⟨_, (mem_stretch sorted).mpr ⟨inside, rfl⟩, rfl⟩

end LocatorRun

/-! What sits in each bucket. -/

def HoldsAt (runs : OrderedMap Int LocatorRun) (bucket : Int) (e : Entry) : Prop :=
  ∃ run, runs.get? bucket = some run ∧ e ∈ run.entries

theorem holdsAt_insert {runs : OrderedMap Int LocatorRun} {bucket key : Int} {run : LocatorRun} {e : Entry} :
    HoldsAt (runs.insert key run) bucket e ↔ if bucket = key then e ∈ run.entries else HoldsAt runs bucket e := by
  unfold HoldsAt
  rw [get?_insert]
  split <;> simp

theorem holdsAt_grown {runs : OrderedMap Int LocatorRun} {bucket key : Int} {run : LocatorRun} {e : Entry} {more : Prop}
    (grown : e ∈ run.entries ↔ e ∈ ((runs.get? key).getD (.new key)).entries ∨ more) :
    HoldsAt (runs.insert key run) bucket e ↔ HoldsAt runs bucket e ∨ bucket = key ∧ more := by
  rw [holdsAt_insert]
  split
  · rename_i same
    subst same
    have before : e ∈ ((runs.get? bucket).getD (.new bucket)).entries ↔ HoldsAt runs bucket e := by
      unfold HoldsAt
      cases runs.get? bucket <;> simp [LocatorRun.new]
    rw [grown, before, and_iff_right rfl]
  · rename_i other
    simp [other]

theorem holdsAt_mapValues {runs : OrderedMap Int LocatorRun} {f : Int → LocatorRun → LocatorRun}
    {bucket : Int} {e : Entry} {kept : Prop}
    (each : ∀ run, runs.get? bucket = some run → (e ∈ (f bucket run).entries ↔ e ∈ run.entries ∧ kept)) :
    HoldsAt (runs.mapValues f) bucket e ↔ HoldsAt runs bucket e ∧ kept := by
  unfold HoldsAt
  rw [get?_mapValues]
  cases found : runs.get? bucket with
  | none => simp
  | some run => simpa using each run found

theorem holdsAt_filled {runs : OrderedMap Int LocatorRun} {bucket : Int} {e : Entry} :
    HoldsAt (runs.filter fun _ run => run.entries ≠ []) bucket e ↔ HoldsAt runs bucket e := by
  unfold HoldsAt
  refine exists_congr fun run => and_congr_left fun inside => ?_
  rw [get?_eq_some, get?_eq_some, OrderedMap.mem_filter]
  exact and_iff_left (by simpa using ne_nil_of_mem inside)

theorem holdsAt_mergeRun {runs : OrderedMap Int LocatorRun} {bucket key : Int} {run : LocatorRun}
    {e : Entry} : HoldsAt (Locator.mergeRun runs key run) bucket e ↔
      HoldsAt runs bucket e ∨ bucket = key ∧ e ∈ run.entries :=
  holdsAt_grown (by simp [LocatorRun.merge])

theorem holdsAt_merged {xs : List (Int × LocatorRun)} {runs : OrderedMap Int LocatorRun} {bucket : Int}
    {e : Entry} : HoldsAt (xs.foldl (fun runs x => Locator.mergeRun runs x.1 x.2) runs) bucket e ↔
      HoldsAt runs bucket e ∨ ∃ x ∈ xs, bucket = x.1 ∧ e ∈ x.2.entries := by
  induction xs generalizing runs with
  | nil => simp
  | cons x xs ih => rw [foldl_cons, ih, holdsAt_mergeRun]; simp [or_assoc]

/-- Every run sits under its own bucket, which an `i64` holds. -/
def Aligned (runs : OrderedMap Int LocatorRun) : Prop :=
  ∀ x ∈ runs.entries, x.2.bucket = x.1 ∧ InI64 x.1

theorem Aligned.insert {runs : OrderedMap Int LocatorRun} (aligned : Aligned runs) {bucket : Int}
    {run : LocatorRun} (own : run.bucket = bucket) (fits : InI64 bucket) : Aligned (runs.insert bucket run) := by
  intro x inside
  rcases mem_insert.mp inside with rfl | ⟨old, -⟩
  · exact ⟨own, fits⟩
  · exact aligned x old

theorem Aligned.bucket_getD {runs : OrderedMap Int LocatorRun} (aligned : Aligned runs) (bucket : Int) :
    ((runs.get? bucket).getD (.new bucket)).bucket = bucket := by
  cases found : runs.get? bucket with
  | none => rfl
  | some run => exact (aligned _ (get?_eq_some.mp found)).1

theorem Aligned.merged {xs : List (Int × LocatorRun)} {runs : OrderedMap Int LocatorRun}
    (aligned : Aligned runs) (fits : ∀ x ∈ xs, InI64 x.1) :
    Aligned (xs.foldl (fun runs x => Locator.mergeRun runs x.1 x.2) runs) := by
  induction xs generalizing runs with
  | nil => exact aligned
  | cons x xs ih =>
    exact ih (aligned.insert (aligned.bucket_getD x.1) (fits x mem_cons_self)) fun y inside =>
      fits y (mem_cons_of_mem _ inside)

theorem Aligned.mapValues {runs : OrderedMap Int LocatorRun} (aligned : Aligned runs)
    {f : Int → LocatorRun → LocatorRun} (same : ∀ bucket run, (f bucket run).bucket = run.bucket) :
    Aligned (runs.mapValues f) := by
  intro x inside
  obtain ⟨y, old, rfl⟩ := mem_map.mp inside
  exact ⟨(same _ _).trans (aligned y old).1, (aligned y old).2⟩

theorem Aligned.recode {locator : Locator} (aligned : Aligned locator.runs)
    (few : ∀ run ∈ locator.runs.values, run.entries.length < 2 ^ 32) : locator.recode = .ok locator := by
  have read : (locator.runs.values.mapM fun run => LocatorRun.decode run.encode) =
      .ok locator.runs.values := by
    have each : ∀ run ∈ locator.runs.values, LocatorRun.decode run.encode = .ok run := by
      intro run inside
      obtain ⟨bucket, there⟩ := mem_values.mp inside
      obtain ⟨own, fits⟩ := aligned _ there
      exact LocatorRun.decode_encode (own ▸ fits) (few run inside)
    generalize locator.runs.values = runs at each
    induction runs with
    | nil => rfl
    | cons run runs ih =>
      rw [mapM_cons, each run mem_cons_self,
        ih fun other inside => each other (mem_cons_of_mem _ inside)]
      rfl
  have back : Locator.fromRuns locator.runs.values = locator := by
    refine congrArg Locator.mk (ext_of_mem fun x => ⟨fun inside => ?_, fun inside => ?_⟩)
    · rcases mem_foldl_insert inside with old | ⟨run, there, rfl⟩
      · cases old
      · obtain ⟨bucket, held⟩ := mem_values.mp there
        rwa [(aligned _ held).1]
    · obtain ⟨bucket, run⟩ := x
      have own : run.bucket = bucket := (aligned _ inside).1
      have there : run ∈ locator.runs.values := mem_values.mpr ⟨bucket, inside⟩
      have alone : ∀ other ∈ locator.runs.values, other.bucket = run.bucket → other = run := by
        intro other more same
        obtain ⟨key, held⟩ := mem_values.mp more
        obtain rfl : other.bucket = key := (aligned _ held).1
        exact eq_of_mem (same.trans own ▸ held) inside
      have put := @mem_foldl_insert_new _ _ _ _ LocatorRun.bucket id _ ∅ run there alone
      rwa [own] at put
  rw [Locator.recode, read]
  exact congrArg Except.ok back

/-! Every way a locator is built. -/

section
variable {hash : Bytes → UInt64} {locator other : Locator} {added more : List Reference}

/-- Each bucket holds the entries of its references, and nothing else. -/
structure Exact (hash : Bytes → UInt64) (locator : Locator) (added : List Reference) : Prop where
  aligned : Aligned locator.runs
  holds : ∀ bucket e, HoldsAt locator.runs bucket e ↔
    ∃ r ∈ added, bucketOf r.moment = bucket ∧ r.entry hash = e

theorem exact_new : Exact hash .new [] where
  aligned := by simp [Aligned, Locator.new]
  holds := by simp [HoldsAt, Locator.new, OrderedMap.get?]

theorem Exact.add (exact : Exact hash locator added) {r : Reference} (fits : MomentFits r.moment) :
    Exact hash (locator.add hash r.column r.value r.moment r.segment) (added ++ [r]) where
  aligned := exact.aligned.insert (exact.aligned.bucket_getD _) (inI64_bucketOf fits)
  holds := by
    intro bucket e
    have grown : HoldsAt (locator.add hash r.column r.value r.moment r.segment).runs bucket e ↔
        HoldsAt locator.runs bucket e ∨ bucket = bucketOf r.moment ∧ e = r.entry hash :=
      holdsAt_grown (by simp [Reference.entry])
    rw [grown, exact.holds]
    simp [or_and_right, exists_or, eq_comm]

theorem Exact.sealed (exact : Exact hash locator added) : Exact hash locator.sealed added where
  aligned := exact.aligned.mapValues fun _ _ => rfl
  holds := by
    intro bucket e
    have same := @holdsAt_mapValues locator.runs (fun _ run => run.sealed) bucket e True (by simp)
    rw [Locator.sealed, same, and_true, exact.holds]

theorem Exact.merge (exact : Exact hash locator added) (beside : Exact hash other more) :
    Exact hash (locator.merge other) (added ++ more) where
  aligned := exact.aligned.merged fun x inside => (beside.aligned x inside).2
  holds := by
    intro bucket e
    have theirs : (∃ x ∈ other.runs.entries, bucket = x.1 ∧ e ∈ x.2.entries) ↔
        HoldsAt other.runs bucket e := by
      simp [HoldsAt, get?_eq_some]
    rw [Locator.merge, holdsAt_merged, theirs, exact.holds, beside.holds]
    simp [or_and_right, exists_or]

theorem Exact.retain (exact : Exact hash locator added) (live : Id → Bool) :
    Exact hash (locator.retainSegments live) (added.filter fun r => live r.segment) where
  aligned := fun x inside => @Aligned.mapValues _ exact.aligned (fun _ run => run.retainSegments live)
    (fun _ _ => rfl) x (OrderedMap.mem_filter.mp inside).1
  holds := by
    intro bucket e
    have cut := @holdsAt_mapValues locator.runs (fun _ run => run.retainSegments live) bucket e
      (live e.segment = true) (by simp [LocatorRun.retainSegments])
    rw [Locator.retainSegments, holdsAt_filled, cut, exact.holds]
    constructor
    · rintro ⟨⟨r, inside, day, rfl⟩, kept⟩
      exact ⟨r, List.mem_filter.mpr ⟨inside, kept⟩, day, rfl⟩
    · rintro ⟨r, inside, day, rfl⟩
      obtain ⟨there, kept⟩ := List.mem_filter.mp inside
      exact ⟨⟨r, there, day, rfl⟩, kept⟩

theorem Built.exact (built : Built hash locator added) : Exact hash locator added := by
  induction built with
  | new => exact exact_new
  | add r _ fits ih => exact ih.add fits
  | sealed _ ih => exact ih.sealed
  | merge _ _ first second => exact first.merge second
  | retain live _ ih => exact ih.retain live
  | recode _ few read ih =>
    rw [ih.aligned.recode few] at read
    exact Except.ok.inj read ▸ ih

end

/-! Which calls leave every run in order. -/

namespace Locator
variable {locator : Locator}

end Locator

/-! The answer. -/

section
variable {hash : Bytes → UInt64} {locator : Locator} {added : List Reference}

theorem Exact.mem_candidates (exact : Exact hash locator added) (ordered : locator.InOrder)
    {column : String} {value : Bytes} {start stop : Int} {id : Id} :
    id ∈ locator.candidates hash column value (some (start, stop)) ↔
      ∃ r ∈ added, r.entry hash = Locator.entryOf hash column value id ∧ Overlaps start stop (bucketOf r.moment) := by
  simp only [Locator.candidates, mem_sortDedup, mem_flatMap, Locator.overlapping, List.mem_filter,
    decide_eq_true_eq]
  constructor
  · rintro ⟨run, ⟨inside, reads⟩, named⟩
    obtain ⟨bucket, there⟩ := mem_values.mp inside
    have held := (ordered run inside).mem_candidates.mp named
    obtain ⟨r, put, day, same⟩ := (exact.holds bucket _).mp ⟨run, get?_eq_some.mpr there, held⟩
    have own : run.bucket = bucketOf r.moment := (exact.aligned _ there).1.trans day.symm
    exact ⟨r, put, same, overlaps_bucketOf.mpr (own ▸ reads)⟩
  · rintro ⟨r, put, same, overlaps⟩
    obtain ⟨run, found, held⟩ := (exact.holds (bucketOf r.moment) _).mpr ⟨r, put, rfl, same⟩
    have there := get?_eq_some.mp found
    have inside : run ∈ locator.runs.values := mem_values.mpr ⟨_, there⟩
    have own : run.bucket = bucketOf r.moment := (exact.aligned _ there).1
    exact ⟨run, ⟨inside, own ▸ overlaps_bucketOf.mp overlaps⟩, (ordered run inside).mem_candidates.mpr held⟩

end

def printOf (bytes : Bytes) : UInt64 :=
  if bytes = textBytes "end_user" then 0x1676e1204b530c49
  else if bytes = textBytes "u-1" then 0xea72db3c499847f0
  else if bytes = textBytes "u-2" then 0xc3ff147b029b00dd
  else 0

end TallyOwl.Locate
