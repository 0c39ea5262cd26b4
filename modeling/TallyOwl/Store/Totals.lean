import TallyOwl.Lib.Runs
import TallyOwl.Store.Cbor

/-! The two totals the catalog keeps beside its keys (`catalog.rs`): the bytes of the
stored locator runs and the number of receipts. Each moves in the transaction that moves
the keys it counts, by what the puts and removes of that transaction added up to. -/
open List TallyOwl.Lib.OrderedMap

namespace TallyOwl.Totals
open Lib Cbor

/-- `str::starts_with`. -/
def startsWith (key stem : String) : Bool := stem.toList.isPrefixOf key.toList

/-- The greatest character, which a scan of one prefix puts behind it. -/
def lastChar : Char := Char.ofNat 0x10ffff

/-- Everything from the prefix up to, and without, the prefix with the last character. -/
def inRange (key stem : String) : Bool := decide (stem ≤ key) && decide (key < stem.push lastChar)

theorem le_lastChar (c : Char) : c ≤ lastChar := by
  have small : c.val.toNat ≤ lastChar.val.toNat := by
    have top : lastChar.val.toNat = 0x10ffff := by decide
    rcases c.valid with low | ⟨-, high⟩ <;> omega
  exact UInt32.le_iff_toNat_le.mpr small

theorem range_chars (stem key : List Char) :
    (¬ key < stem ∧ key < stem ++ [lastChar]) ↔ stem <+: key ∧ ¬ stem ++ [lastChar] <+: key := by
  induction stem generalizing key with
  | nil =>
    cases key with
    | nil => simp
    | cons c rest =>
      have top : c < lastChar ↔ lastChar ≠ c :=
        ⟨fun less => less.ne', fun other => lt_of_le_of_ne (le_lastChar c) other.symm⟩
      rw [nil_append, cons_lt_cons_iff, cons_prefix_cons]
      simp [top, not_lt_nil]
  | cons s stem ih =>
    cases key with
    | nil => simp
    | cons c rest =>
      rw [cons_append, cons_lt_cons_iff, cons_lt_cons_iff, cons_prefix_cons,
        cons_prefix_cons]
      by_cases same : s = c
      · subst same
        simpa using ih rest
      · have other : c ≠ s := fun equal => same equal.symm
        simp [same, other]

theorem inRange_iff {key stem : String} :
    inRange key stem = true ↔ startsWith key stem = true ∧ startsWith key (stem.push lastChar) = false := by
  have chars := range_chars stem.toList key.toList
  simp only [inRange, startsWith, Bool.and_eq_true, decide_eq_true_eq, ← not_lt,
    String.lt_iff_toList_lt, String.toList_push, ← Bool.not_eq_true, isPrefixOf_iff_prefix]
  exact chars

abbrev Table := OrderedMap String Bytes

def locatorPrefix : String := "locator/"

def receiptPrefix : String := "receipt/"

def locatorBytesKey : String := "tablet/0000/locator_bytes"

def receiptCountKey : String := "tablet/0000/receipt-count"

inductive CatalogError where
  | unavailable (message : String)
  | damaged (message : String)
  deriving DecidableEq

/-- `decode` of a catalog record, with the catalog's own error. -/
def decode (bytes : Bytes) : Except CatalogError Value :=
  match Cbor.decode bytes with
  | .ok value => .ok value
  | .error e => .error (.damaged ("Part of the stored index could not be read. " ++ e.display))

def field (value : Value) (name : String) : Nat := ((value.field name).bind Value.asUnsigned).getD 0

def record (name : String) (value : Nat) : Bytes :=
  encode ((∅ : MapBuilder).put name (.unsigned value)).build

structure Writer where
  table : Table
  locatorDelta : Int
  receiptDelta : Int

namespace Writer

def put (w : Writer) (key : String) (value : Bytes) : Writer :=
  let old := (w.table.get? key).map List.length
  { table := w.table.insert key value
    locatorDelta := if startsWith key locatorPrefix then
        w.locatorDelta + ((value.length : Int) - ((old.getD 0 : Nat) : Int))
      else w.locatorDelta
    receiptDelta := if startsWith key receiptPrefix && old.isNone then w.receiptDelta + 1
      else w.receiptDelta }

def remove (w : Writer) (key : String) : Writer :=
  match (w.table.get? key).map List.length with
  | none => w
  | some old =>
      { table := w.table.erase key
        locatorDelta := if startsWith key locatorPrefix then w.locatorDelta - old else w.locatorDelta
        receiptDelta := if startsWith key receiptPrefix then w.receiptDelta - 1 else w.receiptDelta }

end Writer

/-- What a transaction writes, in order. Its reads change nothing and are not here. -/
inductive Write where
  | put (key : String) (value : Bytes)
  | remove (key : String)
  deriving DecidableEq

def Write.key : Write → String
  | .put key _ | .remove key => key

def Write.run (w : Writer) : Write → Writer
  | .put key value => w.put key value
  | .remove key => w.remove key

/-- The number a total's record holds; one that does not decode counts as zero. -/
def held (name : String) (bytes : Bytes) : Nat :=
  match decode bytes with
  | .ok value => field value name
  | .error _ => 0

def shifted (total : Nat) (delta : Int) : Nat := (max ((total : Int) + delta) 0).toNat % 2 ^ 64

def shiftLocatorBytes (table : Table) (delta : Int) : Table :=
  if delta = 0 then table
  else
    let total := ((table.get? locatorBytesKey).map (held "b")).getD 0
    table.insert locatorBytesKey (record "b" (shifted total delta))

def shiftReceiptCount (table : Table) (delta : Int) : Table :=
  if delta = 0 then table
  else
    match table.get? receiptCountKey with
    | none => table
    | some bytes => table.insert receiptCountKey (record "n" (shifted (held "n" bytes) delta))

/-- One durable transaction. One that fails leaves the table as it was and is not an event. -/
def transact (table : Table) (writes : List Write) : Table :=
  let writer := writes.foldl Write.run ⟨table, 0, 0⟩
  shiftReceiptCount (shiftLocatorBytes writer.table writer.locatorDelta) writer.receiptDelta

def scan (table : Table) (stem : String) : List (String × Bytes) :=
  table.entries.filter fun entry => inRange entry.1 stem

/-- `locator_bytes`: the record, or one full sum that it stores. -/
def locatorBytes (table : Table) : Except CatalogError Nat × Table :=
  match table.get? locatorBytesKey with
  | some bytes => ((decode bytes).map fun value => field value "b", table)
  | none =>
      let total := ((scan table locatorPrefix).map fun entry => entry.2.length).sum % 2 ^ 64
      (.ok total, table.insert locatorBytesKey (record "b" total))

/-- `receipt_count`: the record, or one full count that it stores. -/
def receiptCount (table : Table) : Except CatalogError Nat × Table :=
  match table.get? receiptCountKey with
  | some bytes => ((decode bytes).map fun value => field value "n", table)
  | none =>
      let count := (scan table receiptPrefix).length % 2 ^ 64
      (.ok count, transact table [.put receiptCountKey (record "n" count)])

section

def storedRunBytes (table : Table) : Nat :=
  ((table.entries.filter fun entry => startsWith entry.1 locatorPrefix).map
    fun entry => entry.2.length).sum

def storedReceipts (table : Table) : Nat :=
  (table.entries.filter fun entry => startsWith entry.1 receiptPrefix).length

def runWeight (key : String) (value : Bytes) : Int :=
  if startsWith key locatorPrefix then value.length else 0

def receiptWeight (key : String) (_ : Bytes) : Int := if startsWith key receiptPrefix then 1 else 0

def total (weigh : String → Bytes → Int) (table : Table) : Int :=
  (table.entries.map fun entry => weigh entry.1 entry.2).sum

theorem total_runWeight (table : Table) : total runWeight table = storedRunBytes table := by
  unfold total storedRunBytes
  induction table.entries with
  | nil => rfl
  | cons entry rest ih =>
    rw [map_cons, sum_cons, ih, filter_cons]
    by_cases counted : startsWith entry.1 locatorPrefix = true
    · simp [runWeight, counted]
    · simp [runWeight, counted]

theorem total_receiptWeight (table : Table) : total receiptWeight table = storedReceipts table := by
  unfold total storedReceipts
  induction table.entries with
  | nil => rfl
  | cons entry rest ih =>
    rw [map_cons, sum_cons, ih, filter_cons]
    by_cases counted : startsWith entry.1 receiptPrefix = true
    · simp [receiptWeight, counted, add_comm]
    · simp [receiptWeight, counted]

theorem total_insert (weigh : String → Bytes → Int) (table : Table) (key : String) (value : Bytes) :
    total weigh (table.insert key value) = total weigh table - (table.get? key).elim 0 (weigh key) + weigh key value :=
  sum_insert weigh table key value

theorem total_erase (weigh : String → Bytes → Int) (table : Table) (key : String) :
    total weigh (table.erase key) = total weigh table - (table.get? key).elim 0 (weigh key) :=
  sum_erase weigh table key

variable {key : String}

theorem total_insert_uncounted {weigh : String → Bytes → Int} (value : Bytes)
    (uncounted : ∀ bytes, weigh key bytes = 0) (table : Table) :
    total weigh (table.insert key value) = total weigh table := by
  rw [total_insert, uncounted]
  cases table.get? key with
  | none => simp
  | some old => simp [uncounted old]

theorem runWeight_total (bytes : Bytes) : runWeight locatorBytesKey bytes = 0 ∧ runWeight receiptCountKey bytes = 0 :=
  ⟨if_neg (by decide), if_neg (by decide)⟩

theorem receiptWeight_total (bytes : Bytes) :
    receiptWeight locatorBytesKey bytes = 0 ∧ receiptWeight receiptCountKey bytes = 0 :=
  ⟨if_neg (by decide), if_neg (by decide)⟩

theorem run_balanced (w : Writer) (write : Write) : total runWeight (write.run w).table - (write.run w).locatorDelta =
      total runWeight w.table - w.locatorDelta ∧ total receiptWeight (write.run w).table - (write.run w).receiptDelta =
      total receiptWeight w.table - w.receiptDelta := by
  cases write with
  | put key value =>
    simp only [Write.run, Writer.put, total_insert]
    cases old : w.table.get? key with
    | none =>
      simp only [Option.elim_none, Option.map_none, Option.getD_none, runWeight, receiptWeight,
        Option.isNone_none, Bool.and_true]
      constructor
      · split <;> simp
      · split <;> simp
    | some bytes =>
      simp only [Option.elim_some, Option.map_some, Option.getD_some, runWeight, receiptWeight,
        Option.isNone_some, Bool.and_false]
      constructor
      · split <;> omega
      · split <;> simp
  | remove key =>
    simp only [Write.run, Writer.remove]
    cases old : w.table.get? key with
    | none => simp
    | some bytes =>
      simp only [Option.map_some, total_erase, old, Option.elim_some, runWeight, receiptWeight]
      constructor
      · split <;> omega
      · split <;> omega

/-- What the writes of a transaction leave, before the totals move. -/
def written (table : Table) (writes : List Write) : Writer := writes.foldl Write.run ⟨table, 0, 0⟩

theorem written_balanced (table : Table) (writes : List Write) : (storedRunBytes (written table writes).table : Int) =
      storedRunBytes table + (written table writes).locatorDelta ∧ (storedReceipts (written table writes).table : Int) =
      storedReceipts table + (written table writes).receiptDelta := by
  have balanced : ∀ w : Writer,
      total runWeight (writes.foldl Write.run w).table - (writes.foldl Write.run w).locatorDelta =
        total runWeight w.table - w.locatorDelta ∧
      total receiptWeight (writes.foldl Write.run w).table -
        (writes.foldl Write.run w).receiptDelta = total receiptWeight w.table - w.receiptDelta := by
    induction writes with
    | nil => exact fun w => ⟨rfl, rfl⟩
    | cons write rest ih =>
      intro w
      obtain ⟨runs, receipts⟩ := ih (write.run w)
      obtain ⟨runs', receipts'⟩ := run_balanced w write
      exact ⟨runs.trans runs', receipts.trans receipts'⟩
  obtain ⟨runs, receipts⟩ := balanced ⟨table, 0, 0⟩
  simp only [total_runWeight, total_receiptWeight] at runs receipts
  constructor
  · rw [written]
    omega
  · rw [written]
    omega

theorem get?_run (w : Writer) (write : Write) (other : write.key ≠ key) :
    (write.run w).table.get? key = w.table.get? key := by
  cases write with
  | put k value =>
    have apart : key ≠ k := Ne.symm other
    simp only [Write.run, Writer.put]
    rw [get?_insert, if_neg apart]
  | remove k =>
    have apart : key ≠ k := Ne.symm other
    simp only [Write.run, Writer.remove]
    split
    · rfl
    · simp only
      rw [get?_erase, if_neg apart]

theorem get?_written (table : Table) {writes : List Write} (others : ∀ write ∈ writes, write.key ≠ key) :
    (written table writes).table.get? key = table.get? key := by
  unfold written
  suffices ∀ w : Writer, (writes.foldl Write.run w).table.get? key = w.table.get? key from
    this ⟨table, 0, 0⟩
  induction writes with
  | nil => exact fun w => rfl
  | cons write rest ih =>
    intro w
    rw [foldl_cons, ih fun write inside => others write (mem_cons_of_mem _ inside),
      get?_run w write (others write mem_cons_self)]

def Beyond (key : String) : Prop :=
  startsWith key (locatorPrefix.push lastChar) = true ∨
    startsWith key (receiptPrefix.push lastChar) = true

instance (key : String) : Decidable (Beyond key) := inferInstanceAs (Decidable (_ ∨ _))

/-- No stored key is missed by the scans, and both totals are `u64`s. -/
structure Plain (table : Table) : Prop where
  scanned : ∀ entry ∈ table.entries, ¬ Beyond entry.1
  runs : storedRunBytes table < 2 ^ 64
  receipts : storedReceipts table < 2 ^ 64

theorem scan_eq {table : Table} (plain : Plain table) {stem : String}
    (one : stem = locatorPrefix ∨ stem = receiptPrefix) :
    scan table stem = table.entries.filter fun entry => startsWith entry.1 stem := by
  refine filter_congr fun entry inside => ?_
  have within := plain.scanned entry inside
  unfold Beyond at within
  rw [Bool.eq_iff_iff, inRange_iff]
  rcases one with rfl | rfl
  · simp [Bool.eq_false_iff.mpr fun beyond => within (.inl beyond)]
  · simp [Bool.eq_false_iff.mpr fun beyond => within (.inr beyond)]

theorem mem_run {w : Writer} {write : Write} {entry : String × Bytes} (inside : entry ∈ (write.run w).table.entries) :
    entry ∈ w.table.entries ∨ entry.1 = write.key := by
  cases write with
  | put key value =>
    rcases mem_insert.mp inside with rfl | ⟨before, -⟩
    · exact .inr rfl
    · exact .inl before
  | remove key =>
    simp only [Write.run, Writer.remove] at inside
    split at inside
    · exact .inl inside
    · exact .inl (mem_erase.mp inside).1

theorem mem_written {table : Table} {writes : List Write} {entry : String × Bytes}
    (inside : entry ∈ (written table writes).table.entries) :
    entry ∈ table.entries ∨ ∃ write ∈ writes, entry.1 = write.key := by
  unfold written at inside
  suffices ∀ w : Writer, entry ∈ (writes.foldl Write.run w).table.entries →
      entry ∈ w.table.entries ∨ ∃ write ∈ writes, entry.1 = write.key from this ⟨table, 0, 0⟩ inside
  clear inside
  induction writes with
  | nil => exact fun w inside => .inl inside
  | cons write rest ih =>
    intro w inside
    rcases ih _ inside with before | ⟨later, there, same⟩
    · rcases mem_run before with older | same
      · exact .inl older
      · exact .inr ⟨write, mem_cons_self, same⟩
    · exact .inr ⟨later, mem_cons_of_mem _ there, same⟩

end

section

variable {name : String}

theorem decode_record {value : Nat} (short : (textBytes name).length < 2 ^ 64)
    (small : value < 2 ^ 64) : decode (record name value) = .ok (.map [(name, .unsigned value)]) := by
  have back : Cbor.decode (record name value) = .ok (.map [(name, .unsigned value)]) := by
    refine decode_encode ?_
    show Value.Fits 32 (.map [(name, .unsigned value)])
    simp only [Value.Fits, length_singleton, pairwise_singleton, mem_singleton,
      forall_eq]
    exact ⟨by decide, trivial, short, small⟩
  simp only [decode, back]

theorem field_single (name : String) (value : Nat) : field (.map [(name, .unsigned value)]) name = value := by
  simp [field, Value.field, Value.asMap, Value.asUnsigned]

def ReadsExact (table : Table) : Prop :=
  (locatorBytes table).1 = .ok (storedRunBytes table) ∧
    (receiptCount table).1 = .ok (storedReceipts table)

def Holds (table : Table) (key name : String) (value : Nat) : Prop :=
  ∀ bytes, table.get? key = some bytes → (decode bytes).map (fun v => field v name) = .ok value

theorem held_of_ok {bytes : Bytes} {value : Nat}
    (read : (decode bytes).map (fun v => field v name) = .ok value) : held name bytes = value := by
  unfold held
  cases found : decode bytes with
  | error e => simp [found, Except.map] at read
  | ok v => simpa [found, Except.map] using read

theorem holds_insert_iff (table : Table) (key : String) {value number : Nat}
    (short : (textBytes name).length < 2 ^ 64) (small : value < 2 ^ 64) :
    Holds (table.insert key (record name value)) key name number ↔ value = number := by
  have own : (table.insert key (record name value)).get? key = some (record name value) := by
    rw [get?_insert, if_pos rfl]
  have read : (decode (record name value)).map (fun v => field v name) = .ok value := by
    rw [decode_record short small]
    exact congrArg Except.ok (field_single name value)
  constructor
  · intro holds
    exact Except.ok.inj (read.symm.trans (holds _ own))
  · rintro rfl bytes found
    obtain rfl := Option.some.inj (own.symm.trans found)
    exact read

theorem storedRunBytes_insert (table : Table) (bytes : Bytes) :
    storedRunBytes (table.insert locatorBytesKey bytes) = storedRunBytes table ∧
      storedRunBytes (table.insert receiptCountKey bytes) = storedRunBytes table := by
  have first := total_insert_uncounted bytes (fun b => (runWeight_total b).1) table
  have second := total_insert_uncounted bytes (fun b => (runWeight_total b).2) table
  simp only [total_runWeight] at first second
  exact ⟨by omega, by omega⟩

theorem storedReceipts_insert (table : Table) (bytes : Bytes) :
    storedReceipts (table.insert locatorBytesKey bytes) = storedReceipts table ∧
      storedReceipts (table.insert receiptCountKey bytes) = storedReceipts table := by
  have first := total_insert_uncounted bytes (fun b => (receiptWeight_total b).1) table
  have second := total_insert_uncounted bytes (fun b => (receiptWeight_total b).2) table
  simp only [total_receiptWeight] at first second
  exact ⟨by omega, by omega⟩

variable {table : Table}

theorem Plain.insert (plain : Plain table) (bytes : Bytes) :
    Plain (table.insert locatorBytesKey bytes) ∧ Plain (table.insert receiptCountKey bytes) := by
  have own : ¬ Beyond locatorBytesKey ∧ ¬ Beyond receiptCountKey := by decide
  constructor
  · refine ⟨fun entry inside => ?_, (storedRunBytes_insert table bytes).1 ▸ plain.runs,
      (storedReceipts_insert table bytes).1 ▸ plain.receipts⟩
    rcases mem_insert.mp inside with rfl | ⟨before, -⟩
    · exact own.1
    · exact plain.scanned entry before
  · refine ⟨fun entry inside => ?_, (storedRunBytes_insert table bytes).2 ▸ plain.runs,
      (storedReceipts_insert table bytes).2 ▸ plain.receipts⟩
    rcases mem_insert.mp inside with rfl | ⟨before, -⟩
    · exact own.2
    · exact plain.scanned entry before

theorem locatorBytes_exact_iff (plain : Plain table) : (locatorBytes table).1 = .ok (storedRunBytes table) ↔
      Holds table locatorBytesKey "b" (storedRunBytes table) := by
  unfold locatorBytes Holds
  cases there : table.get? locatorBytesKey with
  | some bytes => simp
  | none =>
    rw [scan_eq plain (.inl rfl)]
    refine iff_of_true (congrArg Except.ok (Nat.mod_eq_of_lt plain.runs)) fun bytes found => ?_
    cases found

theorem receiptCount_exact_iff (plain : Plain table) : (receiptCount table).1 = .ok (storedReceipts table) ↔
      Holds table receiptCountKey "n" (storedReceipts table) := by
  unfold receiptCount Holds
  cases there : table.get? receiptCountKey with
  | some bytes => simp
  | none =>
    rw [scan_eq plain (.inr rfl)]
    refine iff_of_true (congrArg Except.ok (Nat.mod_eq_of_lt plain.receipts)) fun bytes found => ?_
    cases found

end

section
variable {table : Table}

/-- A shift keeps the locator total right where it starts from a record, or where nothing
was stored before it or nothing is after. -/
theorem shiftLocatorBytes_holds_iff {before : Nat} {delta : Int} (plain : Plain table)
    (moved : (storedRunBytes table : Int) = before + delta) (right : Holds table locatorBytesKey "b" before) :
    Holds (shiftLocatorBytes table delta) locatorBytesKey "b" (storedRunBytes table) ↔
      table.get? locatorBytesKey ≠ none ∨ storedRunBytes table = before ∨ before = 0 ∨ storedRunBytes table = 0 := by
  unfold shiftLocatorBytes
  by_cases still : delta = 0
  · have same : storedRunBytes table = before := by omega
    rw [if_pos still, same]
    exact iff_of_true right (.inr (.inl rfl))
  · rw [if_neg still]
    cases there : table.get? locatorBytesKey with
    | some bytes =>
      refine iff_of_true ?_ (.inl (by simp))
      have total : shifted (held "b" bytes) delta = storedRunBytes table := by
        rw [held_of_ok (right bytes there), shifted, ← moved]
        have := Nat.mod_eq_of_lt plain.runs
        omega
      simp only [Option.map_some, Option.getD_some, total]
      exact (holds_insert_iff _ _ (by decide) plain.runs).mpr rfl
    | none =>
      have small : (max delta 0).toNat < 2 ^ 64 := by
        have := plain.runs
        omega
      have total : shifted 0 delta = (max delta 0).toNat := by
        rw [shifted, Nat.cast_zero, zero_add, Nat.mod_eq_of_lt small]
      simp only [Option.map_none, Option.getD_none, total, ne_eq, not_true_eq_false, false_or]
      rw [holds_insert_iff _ _ (by decide) small]
      omega

theorem shiftReceiptCount_holds {before : Nat} {delta : Int} (plain : Plain table)
    (moved : (storedReceipts table : Int) = before + delta) (right : Holds table receiptCountKey "n" before) :
    Holds (shiftReceiptCount table delta) receiptCountKey "n" (storedReceipts table) := by
  unfold shiftReceiptCount
  by_cases still : delta = 0
  · have same : storedReceipts table = before := by omega
    rw [if_pos still, same]
    exact right
  · rw [if_neg still]
    cases there : table.get? receiptCountKey with
    | some bytes =>
      have total : shifted (held "n" bytes) delta = storedReceipts table := by
        rw [held_of_ok (right bytes there), shifted, ← moved]
        have := Nat.mod_eq_of_lt plain.receipts
        omega
      simp only [total]
      exact (holds_insert_iff _ _ (by decide) plain.receipts).mpr rfl
    | none =>
      intro bytes found
      rw [there] at found
      cases found

theorem shiftLocatorBytes_cases (table : Table) (delta : Int) : shiftLocatorBytes table delta = table ∨
      ∃ bytes, shiftLocatorBytes table delta = table.insert locatorBytesKey bytes := by
  unfold shiftLocatorBytes
  split
  · exact .inl rfl
  · exact .inr ⟨_, rfl⟩

theorem shiftReceiptCount_cases (table : Table) (delta : Int) : shiftReceiptCount table delta = table ∨
      ∃ bytes, shiftReceiptCount table delta = table.insert receiptCountKey bytes := by
  unfold shiftReceiptCount
  split
  · exact .inl rfl
  · split
    · exact .inl rfl
    · exact .inr ⟨_, rfl⟩

end

/-! Runs of transactions and reads. -/

section

inductive Event where
  | commit (writes : List Write)
  | locatorBytes
  | receiptCount
  deriving DecidableEq

def move (table : Table) : Event → Table
  | .commit writes => transact table writes
  | .locatorBytes => (locatorBytes table).2
  | .receiptCount => (receiptCount table).2

/-- A transaction that leaves the records of the totals to the catalog, and writes no key
that a scan of its prefix misses. -/
def Ordinary (table : Table) : Event → Prop
  | .commit writes =>
      (∀ write ∈ writes, write.key ≠ locatorBytesKey ∧ write.key ≠ receiptCountKey ∧
        ¬ Beyond write.key) ∧
      storedRunBytes (written table writes).table < 2 ^ 64 ∧
      storedReceipts (written table writes).table < 2 ^ 64
  | .locatorBytes | .receiptCount => True

/-- A transaction that moves the bytes of the stored runs finds their total recorded, or has
no run before it, or leaves none. -/
def StartsRight (table : Table) : Event → Prop
  | .commit writes =>
      table.get? locatorBytesKey ≠ none ∨
      storedRunBytes (written table writes).table = storedRunBytes table ∨
      storedRunBytes table = 0 ∨ storedRunBytes (written table writes).table = 0
  | .locatorBytes | .receiptCount => True

theorem keys_apart : locatorBytesKey ≠ receiptCountKey := by decide

variable {table : Table} {writes : List Write}

theorem Plain.written (plain : Plain table)
    (ordinary : Ordinary table (.commit writes)) : Plain (written table writes).table := by
  refine ⟨fun entry inside => ?_, ordinary.2.1, ordinary.2.2⟩
  rcases mem_written inside with before | ⟨write, there, same⟩
  · exact plain.scanned entry before
  · rw [same]
    exact (ordinary.1 write there).2.2

theorem transact_stored (plain : Plain (written table writes).table) : Plain (transact table writes) ∧
    storedRunBytes (transact table writes) = storedRunBytes (written table writes).table ∧
    storedReceipts (transact table writes) = storedReceipts (written table writes).table := by
  have first : ∀ {t : Table}, Plain t → ∀ delta, Plain (shiftLocatorBytes t delta) ∧
      storedRunBytes (shiftLocatorBytes t delta) = storedRunBytes t ∧
      storedReceipts (shiftLocatorBytes t delta) = storedReceipts t := by
    intro t plain delta
    rcases shiftLocatorBytes_cases t delta with same | ⟨bytes, same⟩
    · rw [same]
      exact ⟨plain, rfl, rfl⟩
    · rw [same]
      exact ⟨(plain.insert bytes).1, (storedRunBytes_insert t bytes).1,
        (storedReceipts_insert t bytes).1⟩
  have second : ∀ {t : Table}, Plain t → ∀ delta, Plain (shiftReceiptCount t delta) ∧
      storedRunBytes (shiftReceiptCount t delta) = storedRunBytes t ∧
      storedReceipts (shiftReceiptCount t delta) = storedReceipts t := by
    intro t plain delta
    rcases shiftReceiptCount_cases t delta with same | ⟨bytes, same⟩
    · rw [same]
      exact ⟨plain, rfl, rfl⟩
    · rw [same]
      exact ⟨(plain.insert bytes).2, (storedRunBytes_insert t bytes).2,
        (storedReceipts_insert t bytes).2⟩
  obtain ⟨plain₁, runs₁, receipts₁⟩ := first plain (written table writes).locatorDelta
  obtain ⟨plain₂, runs₂, receipts₂⟩ := second plain₁ (written table writes).receiptDelta
  exact ⟨plain₂, runs₂.trans runs₁, receipts₂.trans receipts₁⟩

theorem readsExact_iff (plain : Plain table) : ReadsExact table ↔
    Holds table locatorBytesKey "b" (storedRunBytes table) ∧ Holds table receiptCountKey "n" (storedReceipts table) :=
  and_congr (locatorBytes_exact_iff plain) (receiptCount_exact_iff plain)

theorem holds_insert_other {key other name : String} {bytes : Bytes} {value : Nat} (apart : key ≠ other) :
    Holds (table.insert other bytes) key name value ↔ Holds table key name value := by
  unfold Holds
  rw [get?_insert, if_neg apart]

theorem commit_exact_iff (plain : Plain table) (ordinary : Ordinary table (.commit writes)) (exact : ReadsExact table) :
    ReadsExact (transact table writes) ↔ StartsRight table (.commit writes) := by
  obtain ⟨right, counted⟩ := (readsExact_iff plain).mp exact
  obtain ⟨runs, receipts⟩ := written_balanced table writes
  have plainWritten := plain.written ordinary
  obtain ⟨plainAfter, sameRuns, sameReceipts⟩ := transact_stored plainWritten
  have record : (written table writes).table.get? locatorBytesKey = table.get? locatorBytesKey :=
    get?_written table fun write inside => (ordinary.1 write inside).1
  have countRecord : (written table writes).table.get? receiptCountKey = table.get? receiptCountKey :=
    get?_written table fun write inside => (ordinary.1 write inside).2.1
  have first := shiftLocatorBytes_holds_iff plainWritten runs (by rw [Holds, record]; exact right)
  have moved : Plain (shiftLocatorBytes (written table writes).table (written table writes).locatorDelta) ∧
      storedReceipts (shiftLocatorBytes (written table writes).table
        (written table writes).locatorDelta) = storedReceipts (written table writes).table ∧
      Holds (shiftLocatorBytes (written table writes).table (written table writes).locatorDelta)
        receiptCountKey "n" (storedReceipts table) := by
    rcases shiftLocatorBytes_cases (written table writes).table
        (written table writes).locatorDelta with same | ⟨bytes, same⟩
    · rw [same, Holds, countRecord]
      exact ⟨plainWritten, rfl, counted⟩
    · rw [same, holds_insert_other keys_apart.symm, Holds, countRecord]
      exact ⟨(plainWritten.insert bytes).1, (storedReceipts_insert _ bytes).1, counted⟩
  have second := shiftReceiptCount_holds moved.1 (by rw [moved.2.1]; exact receipts) moved.2.2
  rw [readsExact_iff plainAfter, sameRuns, sameReceipts]
  have kept : Holds (transact table writes) locatorBytesKey "b"
        (storedRunBytes (written table writes).table) ↔
      Holds (shiftLocatorBytes (written table writes).table (written table writes).locatorDelta)
        locatorBytesKey "b" (storedRunBytes (written table writes).table) := by
    unfold transact
    rcases shiftReceiptCount_cases (shiftLocatorBytes (written table writes).table
        (written table writes).locatorDelta) (written table writes).receiptDelta with same | ⟨bytes, same⟩
    · rw [← written, same]
    · rw [← written, same, holds_insert_other keys_apart]
  rw [moved.2.1] at second
  rw [kept, first, record]
  exact and_iff_left second

theorem transact_count (table : Table) (bytes : Bytes) :
    transact table [.put receiptCountKey bytes] = table.insert receiptCountKey bytes := by
  have apart : startsWith receiptCountKey locatorPrefix = false ∧
      startsWith receiptCountKey receiptPrefix = false := by decide
  simp [transact, Write.run, Writer.put, apart.1, apart.2, shiftLocatorBytes, shiftReceiptCount]

theorem read_kept (plain : Plain table) (exact : ReadsExact table) :
    (Plain (locatorBytes table).2 ∧ ReadsExact (locatorBytes table).2) ∧
      Plain (receiptCount table).2 ∧ ReadsExact (receiptCount table).2 := by
  obtain ⟨right, counted⟩ := (readsExact_iff plain).mp exact
  constructor
  · unfold locatorBytes
    cases there : table.get? locatorBytesKey with
    | some bytes => exact ⟨plain, exact⟩
    | none =>
      have total : ((scan table locatorPrefix).map fun entry => entry.2.length).sum % 2 ^ 64 =
          storedRunBytes table := by
        rw [scan_eq plain (.inl rfl)]
        exact Nat.mod_eq_of_lt plain.runs
      simp only [total]
      have after := (plain.insert (record "b" (storedRunBytes table))).1
      refine ⟨after, (readsExact_iff after).mpr ⟨?_, ?_⟩⟩
      · rw [(storedRunBytes_insert table _).1]
        exact (holds_insert_iff _ _ (by decide) plain.runs).mpr rfl
      · rw [holds_insert_other keys_apart.symm, (storedReceipts_insert table _).1]
        exact counted
  · unfold receiptCount
    cases there : table.get? receiptCountKey with
    | some bytes => exact ⟨plain, exact⟩
    | none =>
      have total : (scan table receiptPrefix).length % 2 ^ 64 = storedReceipts table := by
        rw [scan_eq plain (.inr rfl)]
        exact Nat.mod_eq_of_lt plain.receipts
      simp only [total, transact_count]
      have after := (plain.insert (record "n" (storedReceipts table))).2
      refine ⟨after, (readsExact_iff after).mpr ⟨?_, ?_⟩⟩
      · rw [holds_insert_other keys_apart, (storedRunBytes_insert table _).2]
        exact right
      · rw [(storedReceipts_insert table _).2]
        exact (holds_insert_iff _ _ (by decide) plain.receipts).mpr rfl

/-- Both totals equal what is stored in every state of a run exactly when every transaction
that moves the bytes of the stored runs starts from a record of them, or from no run, or
leaves none. -/
theorem totals_exact_iff {table : Table} {events : List Event} (plain : Plain table)
    (start : ReadsExact table) (ordinary : Along move Ordinary table events) :
    Throughout move ReadsExact table events ↔ Along move StartsRight table events := by
  refine @throughout_iff_along _ _ _ _ _ _ _ (fun table events => Plain table ∧
    Along move Ordinary table events) ?_ ?_ ⟨plain, ordinary⟩ start
  · rintro t e rest ⟨plain, ordinary, -⟩ exact
    cases e with
    | commit writes => exact commit_exact_iff plain ordinary exact
    | locatorBytes => exact iff_of_true (read_kept plain exact).1.2 trivial
    | receiptCount => exact iff_of_true (read_kept plain exact).2.2 trivial
  · rintro t e rest ⟨plain, ordinary, later⟩ exact -
    refine ⟨?_, later⟩
    cases e with
    | commit writes => exact (transact_stored (plain.written ordinary)).1
    | locatorBytes => exact (read_kept plain exact).1.1
    | receiptCount => exact (read_kept plain exact).2.1

end
def runKey (generation : Char) : String := "locator/0000/" ++ String.singleton generation

/-- A catalog an older build wrote: a run of three bytes, and no total. -/
def olderCatalog : Table := OrderedMap.empty.insert (runKey '1') [1, 2, 3]

def secondRun : List Write := [.put (runKey '2') [4]]

theorem olderCatalog_plain : Plain olderCatalog := by
  refine ⟨fun entry inside => ?_, by decide +kernel, by decide +kernel⟩
  obtain rfl : entry = (runKey '1', [1, 2, 3]) := by
    simpa [olderCatalog, OrderedMap.empty, OrderedMap.insert, insertEntry] using inside
  decide

theorem olderCatalog_exact : ReadsExact olderCatalog := by
  have absent : olderCatalog.get? locatorBytesKey = none ∧ olderCatalog.get? receiptCountKey = none := by
    decide +kernel
  refine (readsExact_iff olderCatalog_plain).mpr ⟨fun bytes found => ?_, fun bytes found => ?_⟩
  · rw [absent.1] at found
    cases found
  · rw [absent.2] at found
    cases found

theorem secondRun_ordinary (table : Table) (runs : storedRunBytes (written table secondRun).table < 2 ^ 64)
    (receipts : storedReceipts (written table secondRun).table < 2 ^ 64) : Ordinary table (.commit secondRun) := by
  refine ⟨fun write inside => ?_, runs, receipts⟩
  rw [mem_singleton.mp inside]
  decide

/-- The total is read once before the seal. -/
theorem totals_exact_after_read : Throughout move ReadsExact olderCatalog [.locatorBytes, .commit secondRun] :=
  (@totals_exact_iff olderCatalog [.locatorBytes, .commit secondRun] olderCatalog_plain
    olderCatalog_exact ⟨trivial, secondRun_ordinary _ (by decide +kernel) (by decide +kernel), trivial⟩).mpr
    ⟨trivial, .inl (by decide +kernel), trivial⟩

/-- The seal comes before the first read: its one byte becomes the total of four. -/
theorem total_starts_from_zero : Plain olderCatalog ∧ ReadsExact olderCatalog ∧
      Along move Ordinary olderCatalog [.commit secondRun] ∧
      ¬ Throughout move ReadsExact olderCatalog [.commit secondRun] := by
  refine ⟨olderCatalog_plain, olderCatalog_exact,
    ⟨secondRun_ordinary _ (by decide +kernel) (by decide +kernel), trivial⟩, ?_⟩
  rintro ⟨-, exact, -⟩
  have read : (locatorBytes (transact olderCatalog secondRun)).1.toOption = some 1 ∧
      storedRunBytes (transact olderCatalog secondRun) = 4 := by decide +kernel
  have four : (locatorBytes (transact olderCatalog secondRun)).1.toOption =
      some (storedRunBytes (transact olderCatalog secondRun)) := congrArg Except.toOption exact
  rw [read.1, read.2] at four
  cases four
end TallyOwl.Totals
