import TallyOwl.Head.Document
import TallyOwl.Lib.Logged

/-! Running a query document (`query.rs`), with a log of every row that a read hands on.
What an operator computes from rows it was handed is a parameter here; where the rows
come from is not. -/
namespace TallyOwl.Query
open Lib Segmented

structure Scanned where
  rows : List EventRow
  incomplete : Bool

/-- The range scan of a store or of one tablet, which keeps to its project. -/
structure Scans where
  scan : Id → Int → Int → TimeBasis → Except QueryError Scanned
  own : ∀ {project start stop basis found}, scan project start stop basis = .ok found →
    ∀ row ∈ found.rows, row.projectId = project

structure Store extends Scans where
  lookupCorrelated : String → Bytes → Except QueryError Scanned
  tablets : Option (List Scans)

structure Table where
  columns : List String
  rows : List (List PropertyValue)
  incomplete : Bool

inductive Stage where
  | rows (rows : List EventRow) (basis : TimeBasis) (incomplete : Bool) (zone : String)
  | table (table : Table)

/-- Identity rows folded before, and the moment they reach to. -/
structure Materialised where
  rows : List EventRow
  reaches : Int

/-- What the operators compute. Nothing here reads a store. -/
structure Operators where
  zone : Option String → Except QueryError String
  exactMatch : Bytes → Except QueryError (Option (String × Bytes))
  keep : Bytes → List EventRow → Except QueryError (List EventRow)
  fold : AggregateNode → List EventRow → TimeBasis → String → Except QueryError (Option Bytes)
  gather : List (Except QueryError (Option Bytes)) → Except QueryError (Option (List Bytes × Bool))
  aggregate : AggregateNode → List EventRow → TimeBasis → Bool → String → Option (List Bytes) →
    Except QueryError Stage
  project : ProjectNode → Stage → Except QueryError Stage
  materialize : Stage → Table
  sort : SortNode → Table → Except QueryError Stage
  limit : LimitNode → Table → Except QueryError Table
  append : Table → Table → Except QueryError Table
  waterfall : List EventRow → Table
  check : QueryForm → DomainQuery → Id → Except QueryError Unit
  answer : QueryForm → DomainQuery → List EventRow → List EventRow → Bool → Except QueryError Table

structure Service where
  codec : Codec
  store : Store
  ops : Operators
  now : Int
  identity : (project : Id) → Option { m : Materialised // ∀ row ∈ m.rows, row.projectId = project }

abbrev Exec := Logged EventRow QueryError

open Logged (lift note)

def checkScan (scan : ScanNode) : Except QueryError (Option String) :=
  if scan.range.rangeEnd ≤ scan.range.rangeStart then
    .error (invalidArgument
      "This query asks for a time range that ends before it starts. Set the end after the start.")
  else
    match scan.scan with
    | .events => .ok none
    | .errorOccurrences | .errorGroups => .ok (some "error")
    | .spans => .ok (some "span")
    | .metricPoints => .ok (some "metric-point")
    | .conversions => .ok (some "conversion")
    | .campaignTouches => .ok (some "campaign-touch")
    | .campaignCosts => .ok (some "campaign-cost")
    | .identityEdges => .error (unsupported <|
        "This installation does not answer a query over identity edges yet. Identity and " ++
        "aliasing arrive with the product behaviour work.")

def keepsDerived (dataset : Dataset) (row : EventRow) : Bool :=
  dataset ≠ .events || (row.property "derived").isNone

def firstOfEach (seen : List Id) : List EventRow → List EventRow
  | [] => []
  | row :: rows =>
      if row.eventId ∈ seen then firstOfEach seen rows
      else row :: firstOfEach (row.eventId :: seen) rows

def viewOf (scan : ScanNode) (kind : Option String) (rows : List EventRow) : List EventRow :=
  ((firstOfEach [] rows).filter fun row => kind.all fun wanted => row.kind = wanted).filter
    (keepsDerived scan.scan)

section
variable (codec : Codec) (ops : Operators)

def readScan (source : Scans) (project : Id) (start stop : Int) (basis : TimeBasis) : Exec Scanned := do
  let found ← lift (source.scan project start stop basis)
  note found.rows
  pure found

def scan (source : Scans) (node : ScanNode) : Exec Stage := do
  let kind ← lift (checkScan node)
  let project ← lift (toId node.projectId)
  let found ← readScan source project node.range.rangeStart node.range.rangeEnd node.range.basis
  let zone ← lift (ops.zone node.range.timezone)
  pure (.rows (viewOf node kind found.rows) node.range.basis found.incomplete zone)

/-- The filters below an aggregate, nearest first, and the node under them. An input is
shorter than the node that holds it, so its length is enough fuel. -/
def belowFilters : (fuel : Nat) → Bytes → Except QueryError (List Bytes × QueryNodeBox)
  | 0, encoded => (codec.child encoded).map fun box => ([], box)
  | fuel + 1, encoded => do
      let box ← codec.child encoded
      match box.node, box.filter with
      | .filter, some filter => do
          let (filters, last) ← belowFilters fuel filter.input
          .ok (filter.filter :: filters, last)
      | _, _ => .ok ([], box)

def keepAll : List Bytes → List EventRow → Except QueryError (List EventRow)
  | [], rows => .ok rows
  | filter :: filters, rows => do
      let kept ← ops.keep filter rows
      keepAll filters kept

/-- One tablet's partial state for an aggregate the coordinator planned. -/
def partialAggregate (tablet : Scans) (plan : Bytes) : Exec (Option Bytes) :=
  match codec.decodeQueryNodeBox plan with
  | .error e => .throw ⟨.internal, s!"A pushed-down aggregate could not be read: {e}"⟩
  | .ok box =>
      match box.aggregate with
      | none => .throw (missing "an aggregate")
      | some aggregate => do
          let (filters, last) ← lift (belowFilters codec aggregate.input.length aggregate.input)
          if last.node = .filter then .throw (missing "a filter")
          else
            match last.scan with
            | none => .throw (missing "a scan")
            | some node => do
                match ← scan ops tablet node with
                | .table _ => pure none
                | .rows rows basis _ zone => do
                    let kept ← lift (keepAll ops filters.reverse rows)
                    lift (ops.fold aggregate kept basis zone)

/-- Every tablet is asked, and a tablet that fails is told to the coordinator as a failure. -/
def askAll (plan : Bytes) : List Scans → Exec (List (Except QueryError (Option Bytes)))
  | [] => pure []
  | tablet :: tablets => do
      let answer := partialAggregate codec ops tablet plan
      note answer.log
      let rest ← askAll plan tablets
      pure (answer.result :: rest)

def executeAll (run : Bytes → Exec Stage) : Table → List Bytes → Exec Table
  | held, [] => pure held
  | held, input :: inputs => do
      let stage ← run input
      let both ← lift (ops.append held (ops.materialize stage))
      executeAll run both inputs

def filterStage (predicate : Bytes) : Stage → Exec Stage
  | .rows rows basis incomplete zone => do
      let kept ← lift (ops.keep predicate rows)
      pure (.rows kept basis incomplete zone)
  | .table _ => .throw (unsupported <|
      "A filter reads from a scan or from another filter in this release. Filtering an " ++
      "aggregate result arrives later.")

end

section
variable (service : Service)

/-- A correlated lookup goes across the whole store, and hands on one project's rows. -/
def readLookup (column : String) (value : Bytes) (project : Id) : Exec Scanned := do
  let found ← lift (service.store.lookupCorrelated column value)
  let rows := found.rows.filter fun row => row.projectId = project
  note rows
  pure ⟨rows, found.incomplete⟩

/-- Answer a filter over a scan from the locator, where the predicate names one value. -/
def lookupScan (input : QueryNodeBox) (predicate : Bytes) : Exec (Option Stage) :=
  if input.node ≠ .scan then pure none
  else
    match input.scan with
    | none => .throw (missing "a scan")
    | some node => do
        let kind ← lift (checkScan node)
        let project ← lift (toId node.projectId)
        match ← lift (service.ops.exactMatch predicate) with
        | none => pure none
        | some (column, value) => do
            let found ← readLookup service column value project
            let zone ← lift (service.ops.zone node.range.timezone)
            let within := found.rows.filter fun row =>
              node.range.rangeStart ≤ timeOf row node.range.basis ∧
                timeOf row node.range.basis < node.range.rangeEnd
            pure (some (.rows (viewOf node kind within) node.range.basis found.incomplete zone))

/-- Answer an aggregate from the tablets' partial states, where it can be. -/
def pushedDownAggregate (box : QueryNodeBox) (aggregate : AggregateNode) : Exec (Option Stage) := do
  let (_, input) ← lift (belowFilters service.codec aggregate.input.length aggregate.input)
  if input.node ≠ .scan then pure none
  else
    match input.scan, service.store.tablets with
    | some node, some tablets => do
        let _ ← lift (toId node.projectId)
        let answers ← askAll service.codec service.ops (service.codec.encodeQueryNodeBox box) tablets
        match ← lift (service.ops.gather answers) with
        | none => pure none
        | some (states, complete) => do
            let zone ← lift (service.ops.zone node.range.timezone)
            let stage ← lift (service.ops.aggregate aggregate [] node.range.basis (!complete) zone
              (some states))
            pure (some stage)
    | some node, none => do
        let _ ← lift (toId node.projectId)
        pure none
    | none, _ => pure none

/-- Run a node, in a walk that may still go `left - 1` levels down. -/
def execute : (left : Nat) → QueryNodeBox → Exec Stage
  | 0, _ => .throw tooDeep
  | left + 1, box =>
      let down (encoded : Bytes) : Exec Stage := do
        let inner ← lift (service.codec.child encoded)
        execute left inner
      match box.node with
      | .scan =>
          match box.scan with
          | none => .throw (missing "a scan")
          | some node => scan service.ops service.store.toScans node
      | .filter =>
          match box.filter with
          | none => .throw (missing "a filter")
          | some filter => do
              let inner ← lift (service.codec.child filter.input)
              match ← lookupScan service inner filter.filter with
              | some stage => filterStage service.ops filter.filter stage
              | none => do
                  let input ← execute left inner
                  filterStage service.ops filter.filter input
      | .aggregate =>
          match box.aggregate with
          | none => .throw (missing "an aggregate")
          | some aggregate => do
              match ← pushedDownAggregate service box aggregate with
              | some stage => pure stage
              | none => do
                  match ← down aggregate.input with
                  | .rows rows basis incomplete zone =>
                      lift (service.ops.aggregate aggregate rows basis incomplete zone none)
                  | .table _ => .throw (unsupported
                      "An aggregate reads from a scan or a filter in this release.")
      | .project =>
          match box.project with
          | none => .throw (missing "a projection")
          | some project => do
              let input ← down project.input
              lift (service.ops.project project input)
      | .sort =>
          match box.sort with
          | none => .throw (missing "a sort")
          | some sort => do
              let input ← down sort.input
              lift (service.ops.sort sort (service.ops.materialize input))
      | .limit =>
          match box.limit with
          | none => .throw (missing "a limit")
          | some limit => do
              let input ← down limit.input
              let table ← lift (service.ops.limit limit (service.ops.materialize input))
              pure (.table table)
      | .union =>
          match box.union with
          | none => .throw (missing "a union")
          | some [] => .throw (invalidArgument
              "This query is a union of nothing. Name at least one input.")
          | some (input :: inputs) => do
              let first ← down input
              let table ← executeAll service.ops down (service.ops.materialize first) inputs
              pure (.table table)
      | .join => .throw (unsupported <|
          "This installation does not answer a join yet. Correlating two datasets on an exact ID " ++
          "arrives with the trace query.")

def incompleteResult : QueryError :=
  ⟨.incompleteResult, "We could not read all of the stored data for this query, so this answer " ++
    "would be smaller than the truth. Ask for a partial result if an incomplete answer is useful."⟩

def trace (query : TraceQuery) (allowPartial : Bool) : Exec Table := do
  let project ← lift (toId query.projectId)
  if query.traceId.length ≠ 16 then .throw (invalidArgument "A trace identifier is 16 bytes.")
  else do
    let found ← readLookup service "trace_id" query.traceId project
    if found.incomplete ∧ ¬ allowPartial then .throw ⟨.incompleteResult,
      "We could not read all of the stored data for this trace, so it would be missing spans. " ++
      "Ask for a partial result if an incomplete trace is useful."⟩
    else pure (service.ops.waterfall (firstOfEach [] found.rows))

def isIdentityRow (row : EventRow) : Bool := row.kind ∈ ["identify", "alias", "group"]

/-- The identity rows a graph of the project starts from, and how far they reach. -/
def graph (project : Id) : Exec (Materialised × Bool) :=
  match service.identity project with
  | some held => do
      note held.val.rows
      pure (held.val, false)
  | none => do
      let history ← readScan service.store.toScans project (-2 ^ 62) service.now .occurredAt
      pure (⟨history.rows.filter isIdentityRow, service.now⟩, history.incomplete)

/-- Scan one project and range, and gather the rows of its identity graph. -/
def rowsAndIdentity (project : Id) (range : TimeRange) :
    Exec (List EventRow × Bool × List EventRow) := do
  let scanned ← readScan service.store.toScans project range.rangeStart range.rangeEnd range.basis
  let rows := firstOfEach [] scanned.rows
  let (held, short) ← graph service project
  if held.reaches < range.rangeStart then do
    let window ← readScan service.store.toScans project held.reaches range.rangeStart .occurredAt
    pure (rows, scanned.incomplete || short || window.incomplete,
      held.rows ++ window.rows.filter isIdentityRow ++ rows)
  else pure (rows, scanned.incomplete || short, held.rows ++ rows)

def domain (form : QueryForm) (question : DomainQuery) (allowPartial : Bool) : Exec Table := do
  let project ← lift (toId question.projectId)
  lift (service.ops.check form question project)
  let (rows, incomplete, identity) ← rowsAndIdentity service project question.range
  if incomplete ∧ ¬ allowPartial then .throw incompleteResult
  else lift (service.ops.answer form question rows identity incomplete)

def algebraVersion : Nat := 1

def named : QueryForm → String
  | .node => "a query"
  | .trace => "a trace"
  | .funnel => "a funnel"
  | .retention => "a retention question"
  | .path => "a path"
  | .timeline => "a timeline"
  | .attribution => "an attribution question"
  | .campaignSummary => "a campaign report"

/-- Run a tree, and hold the answer against the request's own terms. -/
def runNode (request : QueryRequest) : Exec Table :=
  match request.node with
  | none => .throw (invalidArgument
      "This request says it carries a query and carries none. Send the query.")
  | some encoded => do
      let box ← lift (service.codec.child encoded)
      let stage ← execute service (maxTreeDepth + 1) box
      let table := service.ops.materialize stage
      if table.incomplete ∧ ¬ request.allowPartial then .throw incompleteResult
      else if request.maxRows.any fun most => table.rows.length > most then
        .throw ⟨.budgetExceeded, s!"This query produced {table.rows.length} rows and the budget allows {request.maxRows.getD 0}. Add a limit, or raise the budget."⟩
      else pure table

def run (request : QueryRequest) : Exec Table :=
  if request.algebraVersion > algebraVersion then
    .throw ⟨.schemaUnsupported, s!"This query was written for a newer version of TallyOwl. It asks for query version {request.algebraVersion}, and this installation speaks version {algebraVersion}."⟩
  else
    match request.form with
    | .node => runNode service request
    | .trace =>
        match request.trace with
        | none => .throw (missing (named .trace))
        | some query => trace service query request.allowPartial
    | form =>
        match request.domain with
        | none => .throw (missing (named form))
        | some question => domain service form question request.allowPartial

end

end TallyOwl.Query
