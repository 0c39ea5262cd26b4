import TallyOwl.Head.Expr
import TallyOwl.Head.Tenancy

/-! A filter over a scan that pins one exact value (`query.rs`). The range scan reads every
row in scope; the lookup reads the rows that carry the literal's text, in the order of
their occurrence. Both then run the whole predicate. -/
namespace TallyOwl.Query
open Lib RowCodec TallyOwl.Expr List
open Segmented (timeOf)

/-- A slice that falls inside a character stops the thread. -/
inductive Stopped where
  | insideCharacter
  deriving DecidableEq

def fromHexPairs : List Char → Except Stopped (Option Bytes)
  | [] => .ok (some [])
  | high :: rest =>
      if high.utf8Size = 2 then .ok none
      else if high.utf8Size ≠ 1 then .error .insideCharacter
      else
        match rest with
        | [] => .ok none
        | low :: rest =>
            if low.utf8Size ≠ 1 then .error .insideCharacter
            else
              match hexByte high low with
              | none => .ok none
              | some byte => (fromHexPairs rest).map fun bytes => bytes.map (byte :: ·)

def fromHex (text : String) : Except Stopped (Option Bytes) :=
  if (textBytes text).length % 2 ≠ 0 ∨ text = "" then .ok none else fromHexPairs text.toList

section
variable (floats : Floats)

def formatFloat (bits : UInt64) : String :=
  if bits = 0x7ff0000000000000 then "+Inf"
  else if bits = 0xfff0000000000000 then "-Inf"
  else
    let whole := floats.toI64 bits
    if floats.partialCmp bits (floats.ofI64 whole) = some .eq ∧ whole.natAbs < 10 ^ 15 then toString whole
    else floats.display bits

def displayOf : PropertyValue → String
  | .text text => text
  | .decimal text => text
  | .integer v => toString v
  | .unsigned v => toString v
  | .boolean v => if v then "true" else "false"
  | .float bits => formatFloat floats bits
  | .bytes v => hex v
  | .null => ""

def rowColumns : List String :=
  ["kind", "name", "service_name", "release", "occurred_at", "received_at", "committed_at",
    "batch_id", "source_id", "project_id", "workspace_id"]

/-- The locator column and the bytes that a field and a literal name. -/
def locatorColumn (field : Field) (value : PropertyValue) :
    Except Stopped (Option (String × Bytes)) :=
  if field.origin.isSome ∨ value = .null then .ok none
  else
    let text := displayOf floats value
    match field.name with
    | "trace_id" => (fromHex text).map fun found => found.map fun bytes => ("trace_id", bytes)
    | "event_id" => (fromHex text).map fun found => found.map fun bytes => ("event_id", bytes)
    | "session_id" => .ok (some ("session_id", textBytes text))
    | "request_id" => .ok (some ("request_id", textBytes text))
    | name =>
        if name ∉ rowColumns then .ok (some (propertyColumn name, textBytes text)) else .ok none

def lookupOf (predicate : Node) : Except Stopped (Option (String × Bytes)) :=
  match exactMatch predicate with
  | some (field, value) => locatorColumn floats field value
  | none => .ok none

end

/-- Check a predicate against the rows, and keep those that satisfy it. -/
def keepRows (floats : Floats) (predicate : Node) (rows : List EventRow) :
    Except QueryError (List EventRow) := do
  checkTypes predicate rows
  .ok (rows.filter (keeps floats predicate))

def stopped : QueryError := ⟨.internal, "A slice fell inside a character."⟩

/-- The rows that carry a value, in the order of their occurrence. -/
def carriers (floats : Floats) (stored : List EventRow) (column : String) (value : Bytes) :
    List EventRow :=
  (stored.filter fun row => rowCarries floats.display row column value).insertionSort
    fun a b => a.occurredAt ≤ b.occurredAt

/-- A store that reads all of some rows: a range scan in the order they are stored, and a
lookup in the order of their occurrence. -/
def storeOf (floats : Floats) (stored : List EventRow) : Store where
  scan project start stop basis := .ok ⟨stored.filter fun row =>
    row.projectId = project ∧ start ≤ timeOf row basis ∧ timeOf row basis < stop, false⟩
  own := by
    intro project start stop basis found read row inside
    cases read
    exact (of_decide_eq_true (List.mem_filter.mp inside).2).1
  lookupCorrelated column value := .ok ⟨carriers floats stored column value, false⟩
  tablets := none

section
variable (floats : Floats) (decode : Bytes → Except QueryError Node) (stored : List EventRow)

def withExpressions (ops : Operators) : Operators :=
  { ops with
    exactMatch := fun predicate => do
      let node ← decode predicate
      match lookupOf floats node with
      | .ok found => .ok found
      | .error _ => .error stopped
    keep := fun predicate rows => do
      let node ← decode predicate
      keepRows floats node rows }

def overRows (service : Service) : Service :=
  { service with store := storeOf floats stored, ops := withExpressions floats decode service.ops }

def filterOfScan (service : Service) (node : ScanNode) (predicate : Bytes) : Exec Stage := do
  let stage ← scan service.ops service.store.toScans node
  filterStage service.ops predicate stage

end

def SameAnswer (a b : Except QueryError Stage) : Prop :=
  match a, b with
  | .ok (.rows rows basis incomplete zone), .ok (.rows others basis' incomplete' zone') =>
      rows.Perm others ∧ basis = basis' ∧ incomplete = incomplete' ∧ zone = zone'
  | .error _, .error _ => True
  | _, _ => False

theorem mem_firstOfEach {seen : List Id} {rows : List EventRow} {row : EventRow}
    (inside : row ∈ firstOfEach seen rows) : row ∈ rows ∧ row.eventId ∉ seen := by
  induction rows generalizing seen with
  | nil => cases inside
  | cons first rows ih =>
    unfold firstOfEach at inside
    split at inside
    · obtain ⟨held, fresh⟩ := ih inside
      exact ⟨mem_cons_of_mem _ held, fresh⟩
    · rename_i fresh
      rcases mem_cons.mp inside with rfl | later
      · exact ⟨mem_cons_self, fresh⟩
      · obtain ⟨held, other⟩ := ih later
        exact ⟨mem_cons_of_mem _ held, fun old => other (mem_cons_of_mem _ old)⟩

theorem nodup_firstOfEach (seen : List Id) (rows : List EventRow) : (firstOfEach seen rows).Nodup := by
  induction rows generalizing seen with
  | nil => exact .nil
  | cons row rows ih =>
    unfold firstOfEach
    split
    · exact ih seen
    · refine nodup_cons.mpr ⟨fun later => ?_, ih _⟩
      exact (mem_firstOfEach later).2 mem_cons_self

theorem filter_perm_filter_iff {α : Type} {xs ys : List α} {keep : α → Bool} (left : xs.Nodup) (right : ys.Nodup) :
    (xs.filter keep).Perm (ys.filter keep) ↔ ∀ x, keep x = true → (x ∈ xs ↔ x ∈ ys) := by
  classical
  rw [perm_ext_iff_of_nodup (left.filter _) (right.filter _)]
  simp only [List.mem_filter]
  constructor
  · intro same x kept
    simpa [kept] using same x
  · intro same x
    by_cases kept : keep x = true
    · simp [kept, same x kept]
    · simp [kept]

/-- Whether a predicate names a property that holds several types over some rows. -/
def Mixed (predicate : Node) (rows : List EventRow) : Prop :=
  ∃ field ∈ collectFields predicate, conflicts rows field = true

theorem keepRows_error {floats : Floats} {predicate : Node} {rows : List EventRow}
    (mixed : Mixed predicate rows) : ∃ e, keepRows floats predicate rows = .error e := by
  obtain ⟨field, inside, conflict⟩ := mixed
  unfold keepRows checkTypes
  split
  · rename_i found _
    exact ⟨_, rfl⟩
  · rename_i none
    exact absurd conflict (find?_eq_none.mp none field inside)

theorem keepRows_ok {floats : Floats} {predicate : Node} {rows : List EventRow} (uniform : ¬ Mixed predicate rows) :
    keepRows floats predicate rows = .ok (rows.filter (keeps floats predicate)) := by
  unfold keepRows checkTypes
  split
  · rename_i found first
    exact absurd ⟨found, mem_of_find?_eq_some first, find?_some first⟩ uniform
  · rfl

section
variable (floats : Floats) (stored : List EventRow) (node : ScanNode) (kind : Option String)
  (project : Id) (predicate : Node)

def inScope (row : EventRow) : Bool :=
  row.projectId = project ∧ node.range.rangeStart ≤ timeOf row node.range.basis ∧
    timeOf row node.range.basis < node.range.rangeEnd

def shows (row : EventRow) : Bool :=
  kind.all (fun wanted => row.kind = wanted) && keepsDerived node.scan row

/-- The rows of one event are its copies; a scan takes the first one stored. -/
def scanRows : List EventRow :=
  (firstOfEach [] (stored.filter (inScope node project))).filter (shows node kind)

/-- A lookup takes the earliest copy that carries the text of the literal. -/
def lookupRows (column : String) (value : Bytes) : List EventRow :=
  (firstOfEach [] ((carriers floats stored column value).filter (inScope node project))).filter
    (shows node kind)

/-- When a lookup answers like the scan. A property that the predicate names without a
type takes several types among the rows looked up where it does among those scanned; and
where it does not, a row that the predicate keeps is the first stored copy of its event
exactly when it carries the text of the literal and is the earliest copy that does. -/
structure Settled (column : String) (value : Bytes) : Prop where
  types : Mixed predicate (scanRows stored node kind project) ↔
    Mixed predicate (lookupRows floats stored node kind project column value)
  copies : ¬ Mixed predicate (scanRows stored node kind project) →
    ∀ row ∈ stored, inScope node project row = true → shows node kind row = true →
      keeps floats predicate row = true →
      (row ∈ firstOfEach [] (stored.filter (inScope node project)) ↔
        rowCarries floats.display row column value = true ∧
          row ∈ firstOfEach [] ((carriers floats stored column value).filter
            (inScope node project)))

end

section
variable {floats : Floats} {decode : Bytes → Except QueryError Node} {stored : List EventRow}
  {node : ScanNode} {kind : Option String} {project : Id} {predicate : Node} {column : String}
  {value : Bytes} {row : EventRow}

theorem viewOf_eq (rows : List EventRow) : viewOf node kind rows = (firstOfEach [] rows).filter (shows node kind) := by
  rw [viewOf, filter_filter]
  congr 1
  funext row
  exact Bool.and_comm _ _

theorem mem_carriers : row ∈ carriers floats stored column value ↔
    row ∈ stored ∧ rowCarries floats.display row column value = true := by
  unfold carriers
  rw [(perm_insertionSort _ _).mem_iff, List.mem_filter]

theorem copies_iff : (∀ row, keeps floats predicate row = true → (row ∈ scanRows stored node kind project ↔
        row ∈ lookupRows floats stored node kind project column value)) ↔
    ∀ row ∈ stored, inScope node project row = true → shows node kind row = true → keeps floats predicate row = true →
      (row ∈ firstOfEach [] (stored.filter (inScope node project)) ↔ rowCarries floats.display row column value = true ∧
          row ∈ firstOfEach [] ((carriers floats stored column value).filter (inScope node project))) := by
  have carried : ∀ row ∈ firstOfEach [] ((carriers floats stored column value).filter
      (inScope node project)), row ∈ stored ∧ inScope node project row = true ∧
        rowCarries floats.display row column value = true := by
    intro row inside
    obtain ⟨held, scope⟩ := List.mem_filter.mp (mem_firstOfEach inside).1
    obtain ⟨old, carries⟩ := mem_carriers.mp held
    exact ⟨old, scope, carries⟩
  simp only [scanRows, lookupRows, List.mem_filter]
  constructor
  · intro same row _ _ shown kept
    have both := same row kept
    rw [and_iff_left shown, and_iff_left shown] at both
    rw [both]
    exact ⟨fun inside => ⟨(carried row inside).2.2, inside⟩, fun inside => inside.2⟩
  · intro same row kept
    constructor
    · rintro ⟨first, shown⟩
      obtain ⟨held, scope⟩ := List.mem_filter.mp (mem_firstOfEach first).1
      exact ⟨((same row held scope shown kept).mp first).2, shown⟩
    · rintro ⟨first, shown⟩
      obtain ⟨held, scope, carries⟩ := carried row first
      exact ⟨(same row held scope shown kept).mpr ⟨carries, first⟩, shown⟩

end

section
variable {floats : Floats} {decode : Bytes → Except QueryError Node} {stored : List EventRow}
  {service : Service} {input : QueryNodeBox} {encoded : Bytes} {node : ScanNode}
  {kind : Option String} {project : Id} {predicate : Node} {column : String} {value : Bytes}

theorem lookupScan_result {stage : Stage} (part : input.scan = some node)
    (view : checkScan node = .ok kind) (tenant : toId node.projectId = .ok project)
    (decoded : decode encoded = .ok predicate) (pinned : lookupOf floats predicate = .ok (some (column, value)))
    (found : (lookupScan (overRows floats decode stored service) input encoded).result = .ok (some stage)) :
    ∃ zone, service.ops.zone node.range.timezone = .ok zone ∧
      stage = .rows (lookupRows floats stored node kind project column value) node.range.basis false zone := by
  have question : (overRows floats decode stored service).ops.exactMatch encoded =
      .ok (some (column, value)) := by
    show (decode encoded >>= fun node => _) = _
    rw [decoded]
    show (match lookupOf floats predicate with | .ok found => _ | .error _ => _) = _
    rw [pinned]
  unfold lookupScan at found
  split at found
  · cases found
  · rw [part] at found
    simp only [Logged.result_bind, Logged.result_lift, view, tenant, question, Except.bind, readLookup,
      Logged.result_note, Logged.result_pure] at found
    have read : (overRows floats decode stored service).store.lookupCorrelated column value =
        .ok ⟨carriers floats stored column value, false⟩ := rfl
    have same : (overRows floats decode stored service).ops.zone = service.ops.zone := rfl
    rw [read, same] at found
    cases zoned : service.ops.zone node.range.timezone with
    | error e =>
      rw [zoned] at found
      cases found
    | ok zone =>
      rw [zoned] at found
      refine ⟨zone, rfl, ?_⟩
      obtain rfl := Option.some.inj (Except.ok.inj found)
      rw [viewOf_eq, filter_filter, lookupRows]
      congr 5
      funext row
      rw [inScope, Bool.eq_iff_iff]
      simp only [Bool.and_eq_true, decide_eq_true_eq]
      tauto

theorem filterStage_result (decoded : decode encoded = .ok predicate) (rows : List EventRow)
    (basis : Segmented.TimeBasis) (incomplete : Bool) (zone : String) :
    (filterStage (overRows floats decode stored service).ops encoded (.rows rows basis incomplete zone)).result =
      (keepRows floats predicate rows).map fun kept => .rows kept basis incomplete zone := by
  have kept : (overRows floats decode stored service).ops.keep encoded rows =
      keepRows floats predicate rows := by
    show (decode encoded >>= fun node => keepRows floats node rows) = _
    rw [decoded]
    rfl
  simp only [filterStage, Logged.result_bind, Logged.result_lift, kept, Logged.result_pure]
  cases keepRows floats predicate rows <;> rfl

theorem filterOfScan_result {zone : String} (view : checkScan node = .ok kind)
    (tenant : toId node.projectId = .ok project) (decoded : decode encoded = .ok predicate)
    (zoned : service.ops.zone node.range.timezone = .ok zone) :
    (filterOfScan (overRows floats decode stored service) node encoded).result =
      (keepRows floats predicate (scanRows stored node kind project)).map fun kept =>
        .rows kept node.range.basis false zone := by
  have same : (overRows floats decode stored service).ops.zone = service.ops.zone := rfl
  have read : (overRows floats decode stored service).store.scan project node.range.rangeStart
      node.range.rangeEnd node.range.basis = .ok ⟨stored.filter (inScope node project), false⟩ := rfl
  simp only [filterOfScan, scan, readScan, Logged.result_bind, Logged.result_lift, view, tenant, read,
    same, zoned, Except.bind, Logged.result_note, Logged.result_pure, viewOf_eq]
  exact filterStage_result decoded _ _ _ _

end

def pricedRow (price : String) : EventRow :=
  { EventRow.new 1 "event" "checkout" 5 with
    projectId := 1, properties := [("price", .decimal price, "client")] }

def pricedScan : ScanNode := ⟨.events, Id.bytes 1, ⟨0, 10, .occurredAt, none⟩⟩

def pricedInput : QueryNodeBox :=
  ⟨.scan, some pricedScan, none, none, none, none, none, none, none⟩

def pricedAt : Node := .compare .eq (.field ⟨"price", none, none⟩) (.literal (.decimal "1.5"))

def pricedService (price : String) : Service :=
  overRows machineFloats (fun _ => .ok pricedAt) [pricedRow price] sharedTrace

end TallyOwl.Query
