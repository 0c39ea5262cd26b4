import TallyOwl.Store.Segmented.Read

/-! Query documents (`query.rs`): a tree whose nodes carry their inputs as encoded
bytes. A node names its kind and has one optional part for each kind; a walk decodes an
input when it goes down to it. -/
namespace TallyOwl.Query
open Lib Segmented

inductive ErrorCode where
  | invalidArgument | budgetExceeded | schemaUnsupported | incompleteResult | typeMismatch
  | unavailable | internal
  deriving DecidableEq

structure QueryError where
  code : ErrorCode
  message : String
  deriving DecidableEq

def invalidArgument (message : String) : QueryError := ⟨.invalidArgument, message⟩

def unsupported (message : String) : QueryError := ⟨.invalidArgument, message⟩

def missing (named : String) : QueryError :=
  invalidArgument s!"Part of this query says it is {named} and carries no {named}. Send the whole query."

inductive QueryNodeKind where
  | scan | filter | project | aggregate | sort | limit | join | union
  deriving DecidableEq

inductive Dataset where
  | events | errorOccurrences | errorGroups | spans | metricPoints | identityEdges
  | campaignTouches | conversions | campaignCosts
  deriving DecidableEq

structure TimeRange where
  rangeStart : Int
  rangeEnd : Int
  basis : TimeBasis
  timezone : Option String
  deriving DecidableEq

inductive PropertyOrigin where
  | client | driver | collector
  deriving DecidableEq

structure FieldRef where
  name : String
  valueType : Option String
  origin : Option PropertyOrigin
  deriving DecidableEq

structure Dimension where
  field : FieldRef
  aliasName : String
  deriving DecidableEq

inductive MeasureKind where
  | count | sum | min | max | avg | countDistinct | countDistinctApprox | quantile
  | quantileApprox | histogramMerge | topK | topKApprox | rate | increase
  deriving DecidableEq

structure Measure where
  kind : MeasureKind
  field : Option FieldRef
  quantile : Option UInt64
  k : Option Nat
  aliasName : String
  deriving DecidableEq

inductive CalendarUnit where
  | hour | day | week | month
  deriving DecidableEq

structure Interval where
  fixedMs : Option Int
  calendar : Option CalendarUnit
  deriving DecidableEq

structure SortKey where
  aliasName : String
  descending : Bool
  deriving DecidableEq

structure ScanNode where
  scan : Dataset
  projectId : Bytes
  range : TimeRange
  deriving DecidableEq

structure FilterNode where
  filter : Bytes
  input : Bytes
  deriving DecidableEq

structure ProjectNode where
  projectFields : List Dimension
  input : Bytes
  deriving DecidableEq

structure AggregateNode where
  dimensions : List Dimension
  measures : List Measure
  interval : Option Interval
  input : Bytes
  deriving DecidableEq

structure SortNode where
  sort : List SortKey
  input : Bytes
  deriving DecidableEq

structure LimitNode where
  limit : Nat
  offset : Option Nat
  cursor : Option Bytes
  input : Bytes
  deriving DecidableEq

structure JoinNode where
  joinKey : FieldRef
  maxRowsEachSide : Nat
  left : Bytes
  right : Bytes
  deriving DecidableEq

structure QueryNodeBox where
  node : QueryNodeKind
  scan : Option ScanNode
  filter : Option FilterNode
  project : Option ProjectNode
  aggregate : Option AggregateNode
  sort : Option SortNode
  limit : Option LimitNode
  join : Option JoinNode
  union : Option (List Bytes)
  deriving DecidableEq

structure Codec where
  decodeQueryNodeBox : Bytes → Except String QueryNodeBox
  encodeQueryNodeBox : QueryNodeBox → Bytes
  decode_encode : ∀ node, decodeQueryNodeBox (encodeQueryNodeBox node) = .ok node

def Codec.child (codec : Codec) (encoded : Bytes) : Except QueryError QueryNodeBox :=
  match codec.decodeQueryNodeBox encoded with
  | .ok node => .ok node
  | .error e => .error (invalidArgument s!"Part of this query could not be read. {e}")

/-- A question of one of the domain operators: the project and range it reads, and what
else it asks, which no walk looks at. -/
structure DomainQuery where
  projectId : Bytes
  range : TimeRange
  question : Bytes
  deriving DecidableEq

structure TraceQuery where
  projectId : Bytes
  traceId : Bytes
  deriving DecidableEq

inductive QueryForm where
  | node | funnel | retention | path | trace | timeline | attribution | campaignSummary
  deriving DecidableEq

structure QueryRequest where
  algebraVersion : Nat
  allowPartial : Bool
  maxRows : Option Nat
  form : QueryForm
  node : Option Bytes
  funnel : Option DomainQuery
  retention : Option DomainQuery
  path : Option DomainQuery
  trace : Option TraceQuery
  timeline : Option DomainQuery
  attribution : Option DomainQuery
  campaignSummary : Option DomainQuery
  deriving DecidableEq

def toId (bytes : Bytes) : Except QueryError Id :=
  if bytes.length = 16 then .ok (Id.ofBytes bytes)
  else .error (invalidArgument
    "This query names a project we do not recognise. A project ID is 16 bytes.")

def maxTreeDepth : Nat := 64

def tooDeep : QueryError :=
  ⟨.budgetExceeded, s!"This query nests operators more than {maxTreeDepth} deep."⟩

section
variable (codec : Codec)

/-- The projects of an optional part, where `walk` goes down to its input. -/
def walkPart {α : Type} (walk : Bytes → Except QueryError (List Id)) (part : Option α)
    (input : α → Bytes) : Except QueryError (List Id) :=
  match part with
  | some p => walk (input p)
  | none => .ok []

def walkAll (walk : Bytes → Except QueryError (List Id)) : List Bytes → Except QueryError (List Id)
  | [] => .ok []
  | input :: inputs => do
      let first ← walk input
      let rest ← walkAll walk inputs
      .ok (first ++ rest)

def projectOf {α : Type} (part : Option α) (bytes : α → Bytes) : Except QueryError (List Id) :=
  match part with
  | some p => (toId (bytes p)).map ([·])
  | none => .ok []

/-- The projects below a node, in a walk that may still go `left - 1` levels down. -/
def collectProjects : (left : Nat) → QueryNodeBox → Except QueryError (List Id)
  | 0, _ => .error tooDeep
  | left + 1, box =>
      let walk (encoded : Bytes) : Except QueryError (List Id) :=
        codec.child encoded >>= collectProjects left
      match box.node with
      | .scan => projectOf box.scan ScanNode.projectId
      | .filter => walkPart walk box.filter FilterNode.input
      | .project => walkPart walk box.project ProjectNode.input
      | .aggregate => walkPart walk box.aggregate AggregateNode.input
      | .sort => walkPart walk box.sort SortNode.input
      | .limit => walkPart walk box.limit LimitNode.input
      | .join =>
          match box.join with
          | some join => do
              let first ← walk join.left
              let second ← walk join.right
              .ok (first ++ second)
          | none => .ok []
      | .union =>
          match box.union with
          | some inputs => walkAll walk inputs
          | none => .ok []

def QueryRequest.domain (request : QueryRequest) : Option DomainQuery :=
  match request.form with
  | .node | .trace => none
  | .funnel => request.funnel
  | .retention => request.retention
  | .path => request.path
  | .timeline => request.timeline
  | .attribution => request.attribution
  | .campaignSummary => request.campaignSummary

def projectsNamed (request : QueryRequest) : Except QueryError (List Id) := do
  let traced ← projectOf request.trace TraceQuery.projectId
  let asked ← projectOf request.domain DomainQuery.projectId
  let scanned ← walkPart
    (fun encoded => codec.child encoded >>= collectProjects codec (maxTreeDepth + 1)) request.node id
  let out := traced ++ asked ++ scanned
  if out = [] then
    .error (invalidArgument
      "This query names no project. Every query names the project whose telemetry it reads.")
  else .ok out

end

end TallyOwl.Query
