import TallyOwl.Head.Execute
import Mathlib.Tactic.DeriveEncodable
import Mathlib.Logic.Equiv.List

/-! Tenancy: a query reads rows only of the projects its authorization lists. The walk
that authorizes and the walk that runs are two recursions over one tree; the second goes
nowhere the first did not. -/
namespace TallyOwl.Query
open Lib Segmented List
open Logged (lift note)

section
open Logged (Keeps)
variable {service : Service} {p : EventRow → Prop}

theorem keeps_readScan {source : Scans} {project : Id} {start stop : Int} {basis : TimeBasis}
    (allowed : ∀ row, row.projectId = project → p row) : Keeps p (readScan source project start stop basis) := by
  refine .bind (.lift _) fun found ok => .bind (.note fun row inside => ?_) fun _ _ => .pure _
  exact allowed row (source.own ok row inside)

theorem keeps_scan {source : Scans} {node : ScanNode} (allowed : ∀ project, toId node.projectId = .ok project →
      ∀ row, row.projectId = project → p row) : Keeps p (scan service.ops source node) := by
  refine .bind (.lift _) fun _ _ => .bind (.lift _) fun project ok => ?_
  exact .bind (keeps_readScan (allowed project ok)) fun _ _ => .bind (.lift _) fun _ _ => .pure _

theorem keeps_readLookup {column : String} {value : Bytes} {project : Id}
    (allowed : ∀ row, row.projectId = project → p row) : Keeps p (readLookup service column value project) := by
  refine .bind (.lift _) fun found _ => .bind (.note fun row inside => ?_) fun _ _ => .pure _
  exact allowed row (by simpa using (List.mem_filter.mp inside).2)

theorem keeps_lookupScan {input : QueryNodeBox} {predicate : Bytes}
    (allowed : ∀ node, input.node = .scan → input.scan = some node →
      ∀ project, toId node.projectId = .ok project → ∀ row, row.projectId = project → p row) :
    Keeps p (lookupScan service input predicate) := by
  unfold lookupScan
  split
  · exact .pure _
  · rename_i isScan
    split
    · exact .throw _
    · rename_i node part
      refine .bind (.lift _) fun kind _ => .bind (.lift _) fun project ok => ?_
      refine .bind (.lift _) fun found _ => ?_
      split
      · exact .pure _
      · refine .bind (keeps_readLookup (allowed node (not_not.mp isScan) part project ok)) ?_
        exact fun _ _ => .bind (.lift _) fun _ _ => .pure _

end

/-! The projects a walk finds. -/

section
variable {service : Service} {left : Nat} {ids : List Id}

theorem collectProjects_scan {box : QueryNodeBox} {node : ScanNode} {project : Id}
    (walked : collectProjects service.codec left box = .ok ids) (isScan : box.node = .scan)
    (part : box.scan = some node) (named : toId node.projectId = .ok project) : project ∈ ids := by
  cases left with
  | zero => cases walked
  | succ left =>
    simp only [collectProjects, isScan, Query.projectOf, part, named, Except.map] at walked
    cases walked
    exact mem_singleton_self _

theorem collectProjects_filter {box : QueryNodeBox} {filter : FilterNode}
    (walked : collectProjects service.codec left box = .ok ids) (isFilter : box.node = .filter)
    (part : box.filter = some filter) : ∃ below inner, left = below + 1 ∧ service.codec.child filter.input = .ok inner ∧
      collectProjects service.codec below inner = .ok ids := by
  cases left with
  | zero => cases walked
  | succ left =>
    simp only [collectProjects, isFilter, walkPart, part] at walked
    cases decoded : service.codec.child filter.input with
    | error e => simp [decoded, bind, Except.bind] at walked
    | ok inner =>
      simp only [decoded, bind, Except.bind] at walked
      exact ⟨left, inner, rfl, rfl, walked⟩

theorem collectProjects_belowFilters {fuel : Nat} {encoded : Bytes} {filters : List Bytes}
    {inner last : QueryNodeBox} {node : ScanNode} {project : Id}
    (below : belowFilters service.codec fuel encoded = .ok (filters, last))
    (decoded : service.codec.child encoded = .ok inner)
    (walked : collectProjects service.codec left inner = .ok ids) (isScan : last.node = .scan)
    (part : last.scan = some node) (named : toId node.projectId = .ok project) : project ∈ ids := by
  induction fuel generalizing left encoded inner filters with
  | zero =>
    simp only [belowFilters, decoded, Except.map] at below
    cases below
    exact collectProjects_scan walked isScan part named
  | succ fuel ih =>
    simp only [belowFilters, decoded, bind, Except.bind] at below
    split at below
    · rename_i filter isFilter held
      split at below
      · cases below
      · rename_i pair found
        cases below
        obtain ⟨under, next, rfl, inside, rest⟩ := collectProjects_filter walked isFilter held
        exact ih found inside rest
    · cases below
      exact collectProjects_scan walked isScan part named

end

section
open Logged (Keeps)
variable {service : Service} {p : EventRow → Prop}

theorem keeps_partialAggregate {tablet : Scans} {box last : QueryNodeBox} {aggregate : AggregateNode}
    {filters : List Bytes} {node : ScanNode} (part : box.aggregate = some aggregate)
    (below : belowFilters service.codec aggregate.input.length aggregate.input = .ok (filters, last))
    (scans : last.scan = some node) (allowed : ∀ project, toId node.projectId = .ok project →
      ∀ row, row.projectId = project → p row) :
    Keeps p (partialAggregate service.codec service.ops tablet (service.codec.encodeQueryNodeBox box)) := by
  unfold partialAggregate
  rw [service.codec.decode_encode]
  simp only [part]
  refine .bind (.lift _) fun pair found => ?_
  obtain rfl := Except.ok.inj (below.symm.trans found)
  dsimp only
  split
  · exact .throw _
  · rw [scans]
    refine .bind (keeps_scan allowed) fun stage _ => ?_
    split
    · exact .pure _
    · exact .bind (.lift _) fun _ _ => .lift _

theorem keeps_askAll {plan : Bytes} {tablets : List Scans}
    (each : ∀ tablet ∈ tablets, Keeps p (partialAggregate service.codec service.ops tablet plan)) :
    Keeps p (askAll service.codec service.ops plan tablets) := by
  induction tablets with
  | nil => exact .pure _
  | cons tablet tablets ih =>
    refine .bind (.note (each tablet mem_cons_self)) fun _ _ => ?_
    refine .bind (ih fun t inside => each t (mem_cons_of_mem _ inside)) fun _ _ => .pure _

variable {ids : List Id}

theorem keeps_pushedDownAggregate {box inner : QueryNodeBox} {aggregate : AggregateNode} {left : Nat}
    (part : box.aggregate = some aggregate) (decoded : service.codec.child aggregate.input = .ok inner)
    (walked : collectProjects service.codec left inner = .ok ids)
    (allowed : ∀ project ∈ ids, ∀ row : EventRow, row.projectId = project → p row) :
    Keeps p (pushedDownAggregate service box aggregate) := by
  refine .bind (.lift _) fun pair below => ?_
  obtain ⟨filters, last⟩ := pair
  dsimp only
  split
  · exact .pure _
  · rename_i isScan
    split
    · rename_i node tablets scans _
      have project : ∀ project, toId node.projectId = .ok project →
          ∀ row : EventRow, row.projectId = project → p row := fun project named =>
        allowed project (collectProjects_belowFilters below decoded walked (not_not.mp isScan) scans
          named)
      refine .bind (.lift _) fun _ _ => ?_
      refine .bind (keeps_askAll fun tablet _ => keeps_partialAggregate part below scans project) ?_
      intro answers _
      refine .bind (.lift _) fun gathered _ => ?_
      split
      · exact .pure _
      · exact .bind (.lift _) fun _ _ => .bind (.lift _) fun _ _ => .pure _
    · exact .bind (.lift _) fun _ _ => .pure _
    · exact .pure _

theorem keeps_filterStage {predicate : Bytes} (stage : Stage) : Keeps p (filterStage service.ops predicate stage) := by
  cases stage with
  | rows rows basis incomplete zone => exact .bind (.lift _) fun _ _ => .pure _
  | table table => exact .throw _

theorem keeps_executeAll {run : Bytes → Exec Stage} {inputs : List Bytes}
    (each : ∀ input ∈ inputs, Keeps p (run input)) (held : Table) :
    Keeps p (executeAll service.ops run held inputs) := by
  induction inputs generalizing held with
  | nil => exact .pure _
  | cons input inputs ih =>
    refine .bind (each input mem_cons_self) fun stage _ => .bind (.lift _) fun both _ => ?_
    exact ih (fun other inside => each other (mem_cons_of_mem _ inside)) both

theorem walkAll_mem {walk : Bytes → Except QueryError (List Id)} {inputs : List Bytes}
    (walked : walkAll walk inputs = .ok ids) : ∀ input ∈ inputs, ∃ found, walk input = .ok found ∧
      ∀ id ∈ found, id ∈ ids := by
  induction inputs generalizing ids with
  | nil => rintro input ⟨⟩
  | cons first inputs ih =>
    simp only [walkAll, bind, Except.bind] at walked
    split at walked
    · cases walked
    · rename_i found here
      split at walked
      · cases walked
      · rename_i rest later
        cases walked
        intro input inside
        rcases mem_cons.mp inside with rfl | tail
        · exact ⟨found, here, fun id mem => mem_append_left _ mem⟩
        · obtain ⟨below, ok, within⟩ := ih later input tail
          exact ⟨below, ok, fun id mem => mem_append_right _ (within id mem)⟩

/-- The executor goes where the walk went: every row it reads is of a project the walk
found. -/
theorem keeps_execute {left : Nat} {box : QueryNodeBox} (walked : collectProjects service.codec left box = .ok ids)
    (allowed : ∀ project ∈ ids, ∀ row : EventRow, row.projectId = project → p row) :
    Keeps p (execute service left box) := by
  induction left generalizing box ids with
  | zero => cases walked
  | succ left ih =>
    -- Going down to an input that the walk went down to.
    have down : ∀ {encoded : Bytes} {found : List Id},
        (service.codec.child encoded >>= collectProjects service.codec left) = .ok found →
        (∀ id ∈ found, id ∈ ids) →
        Keeps p (do
          let inner ← Logged.lift (service.codec.child encoded)
          execute service left inner : Exec Stage) := by
      intro encoded found walk within
      refine .bind (.lift _) fun inner decoded => ?_
      have decoded : service.codec.child encoded = .ok inner := decoded
      rw [decoded] at walk
      exact ih walk fun project inside => allowed project (within project inside)
    rw [collectProjects] at walked
    rw [execute]
    cases kind : box.node with
    | scan =>
      dsimp only
      split
      · exact .throw _
      · rename_i node part
        exact keeps_scan fun project named => allowed project
          (@collectProjects_scan service (left + 1) ids box node project
            (by rw [collectProjects]; exact walked) kind part named)
    | filter =>
      simp only [kind, walkPart] at walked
      dsimp only
      split
      · exact .throw _
      · rename_i filter part
        simp only [part] at walked
        refine .bind (.lift _) fun inner decoded => ?_
        have decoded : service.codec.child filter.input = .ok inner := decoded
        rw [decoded] at walked
        have walked : collectProjects service.codec left inner = .ok ids := walked
        refine .bind (keeps_lookupScan fun node isScan part project named =>
          allowed project (collectProjects_scan walked isScan part named)) fun found _ => ?_
        split
        · exact keeps_filterStage _
        · exact .bind (ih walked allowed) fun input _ => keeps_filterStage input
    | aggregate =>
      simp only [kind, walkPart] at walked
      dsimp only
      split
      · exact .throw _
      · rename_i aggregate part
        simp only [part] at walked
        cases decoded : service.codec.child aggregate.input with
        | error e =>
          rw [decoded] at walked
          cases walked
        | ok inner =>
          have further := walked
          rw [decoded] at further
          refine .bind (keeps_pushedDownAggregate part decoded further allowed) fun found _ => ?_
          split
          · exact .pure _
          · rw [← decoded]
            refine .bind (down walked fun _ inside => inside) fun input _ => ?_
            split
            · exact .lift _
            · exact .throw _
    | project =>
      simp only [kind, walkPart] at walked
      dsimp only
      split
      · exact .throw _
      · rename_i project part
        simp only [part] at walked
        exact .bind (down walked fun _ inside => inside) fun _ _ => .lift _
    | sort =>
      simp only [kind, walkPart] at walked
      dsimp only
      split
      · exact .throw _
      · rename_i sort part
        simp only [part] at walked
        exact .bind (down walked fun _ inside => inside) fun _ _ => .lift _
    | limit =>
      simp only [kind, walkPart] at walked
      dsimp only
      split
      · exact .throw _
      · rename_i limit part
        simp only [part] at walked
        exact .bind (down walked fun _ inside => inside) fun _ _ =>
          .bind (.lift _) fun _ _ => .pure _
    | union =>
      simp only [kind] at walked
      dsimp only
      split
      · exact .throw _
      · exact .throw _
      · rename_i input inputs part
        simp only [part] at walked
        have each : ∀ encoded ∈ input :: inputs, Keeps p (do
            let inner ← Logged.lift (service.codec.child encoded)
            execute service left inner : Exec Stage) := by
          intro encoded inside
          obtain ⟨found, ok, within⟩ := walkAll_mem walked encoded inside
          exact down ok within
        refine .bind (each input mem_cons_self) fun first _ => .bind ?_ fun _ _ => .pure _
        exact keeps_executeAll (fun other tail => each other (mem_cons_of_mem _ tail)) _
    | join => exact .throw _

theorem keeps_trace {query : TraceQuery} {allowPartial : Bool}
    (allowed : ∀ project, toId query.projectId = .ok project → ∀ row : EventRow, row.projectId = project → p row) :
    Keeps p (trace service query allowPartial) := by
  refine .bind (.lift _) fun project ok => ?_
  split
  · exact .throw _
  · refine .bind (keeps_readLookup (allowed project ok)) fun found _ => ?_
    split
    · exact .throw _
    · exact .pure _

theorem keeps_rowsAndIdentity {project : Id} {range : TimeRange}
    (allowed : ∀ row : EventRow, row.projectId = project → p row) :
    Keeps p (rowsAndIdentity service project range) := by
  have graph : Keeps p (graph service project) := by
    unfold Query.graph
    split
    · rename_i held _
      exact .bind (.note fun row inside => allowed row (held.property row inside)) fun _ _ => .pure _
    · exact .bind (keeps_readScan allowed) fun _ _ => .pure _
  refine .bind (keeps_readScan allowed) fun scanned _ => .bind graph fun pair _ => ?_
  obtain ⟨held, short⟩ := pair
  dsimp only
  split
  · exact .bind (keeps_readScan allowed) fun _ _ => .pure _
  · exact .pure _

theorem keeps_domain {form : QueryForm} {question : DomainQuery} {allowPartial : Bool}
    (allowed : ∀ project, toId question.projectId = .ok project → ∀ row : EventRow, row.projectId = project → p row) :
    Keeps p (domain service form question allowPartial) := by
  refine .bind (.lift _) fun project ok => .bind (.lift _) fun _ _ => ?_
  refine .bind (keeps_rowsAndIdentity (allowed project ok)) fun pair _ => ?_
  obtain ⟨rows, incomplete, identity⟩ := pair
  dsimp only
  split
  · exact .throw _
  · exact .lift _

theorem projectOf_ok {α : Type} {part : Option α} {bytes : α → Bytes}
    (named : Query.projectOf part bytes = .ok ids) {held : α} (has : part = some held) :
    ∃ project ∈ ids, toId (bytes held) = .ok project := by
  rw [has] at named
  unfold Query.projectOf at named
  cases found : toId (bytes held) with
  | error e => simp [found, Except.map] at named
  | ok project =>
    simp only [found, Except.map, Except.ok.injEq] at named
    exact ⟨project, named ▸ mem_singleton_self _, rfl⟩

theorem projectsNamed_parts {codec : Codec} {request : QueryRequest} (named : projectsNamed codec request = .ok ids) :
    (∀ query, request.trace = some query → ∃ project ∈ ids, toId query.projectId = .ok project) ∧
    (∀ question, request.domain = some question → ∃ project ∈ ids, toId question.projectId = .ok project) ∧
    ∀ encoded, request.node = some encoded → ∃ found,
      (codec.child encoded >>= collectProjects codec (maxTreeDepth + 1)) = .ok found ∧ ∀ id ∈ found, id ∈ ids := by
  obtain ⟨traced, first, named⟩ := except_bind_ok named
  obtain ⟨asked, second, named⟩ := except_bind_ok named
  obtain ⟨scanned, third, named⟩ := except_bind_ok named
  dsimp only at named
  split at named
  · cases named
  · cases named
    refine ⟨fun query has => ?_, fun question has => ?_, fun encoded has => ?_⟩
    · obtain ⟨project, inside, own⟩ := projectOf_ok first has
      exact ⟨project, by simp [inside], own⟩
    · obtain ⟨project, inside, own⟩ := projectOf_ok second has
      exact ⟨project, by simp [inside], own⟩
    · rw [has] at third
      exact ⟨scanned, third, fun id inside => mem_append_right _ inside⟩

theorem keeps_run {request : QueryRequest} (named : projectsNamed service.codec request = .ok ids)
    (allowed : ∀ project ∈ ids, ∀ row : EventRow, row.projectId = project → p row) : Keeps p (run service request) := by
  obtain ⟨traced, asked, walked⟩ := projectsNamed_parts named
  unfold run
  split
  · exact .throw _
  · split
    · unfold runNode
      split
      · exact .throw _
      · rename_i encoded has
        obtain ⟨found, walk, within⟩ := walked encoded has
        refine .bind (.lift _) fun box decoded => ?_
        have decoded : service.codec.child encoded = .ok box := decoded
        rw [decoded] at walk
        refine .bind (keeps_execute walk fun project inside => allowed project (within project inside)) ?_
        intro stage _
        dsimp only
        split
        · exact .throw _
        · split
          · exact .throw _
          · exact .pure _
    · split
      · exact .throw _
      · rename_i query has
        obtain ⟨project, inside, own⟩ := traced query has
        refine keeps_trace fun other named => ?_
        obtain rfl := Except.ok.inj (own.symm.trans named)
        exact allowed project inside
    · split
      · exact .throw _
      · rename_i question has
        obtain ⟨project, inside, own⟩ := asked question has
        refine keeps_domain fun other named => ?_
        obtain rfl := Except.ok.inj (own.symm.trans named)
        exact allowed project inside

end

/-! Nothing but the listed projects' rows tells two stores apart. -/

def Scanned.ofProject (project : Id) (found : Scanned) : Scanned :=
  ⟨found.rows.filter fun row => row.projectId = project, found.incomplete⟩

/-- Two installations that hold the same rows of these projects, whatever else they hold. -/
structure Agree (ids : List Id) (service other : Service) : Prop where
  codec : other.codec = service.codec
  ops : other.ops = service.ops
  now : other.now = service.now
  scans : ∀ id ∈ ids, other.store.scan id = service.store.scan id
  lookups : ∀ id ∈ ids, ∀ column value,
    (other.store.lookupCorrelated column value).map (Scanned.ofProject id) =
      (service.store.lookupCorrelated column value).map (Scanned.ofProject id)
  tablets : Option.Rel (List.Forall₂ fun a b : Scans => ∀ id ∈ ids, a.scan id = b.scan id)
    other.store.tablets service.store.tablets
  identity : ∀ id ∈ ids, (other.identity id).map Subtype.val = (service.identity id).map Subtype.val

section
open Logged (bind_congr)
variable {service other : Service} {ids : List Id}

variable {project : Id}

theorem readScan_agree {a b : Scans} (same : a.scan project = b.scan project) (start stop : Int) (basis : TimeBasis) :
    readScan a project start stop basis = readScan b project start stop basis := by
  unfold readScan
  rw [same]

variable {ops : Operators}

theorem scan_agree {a b : Scans} {node : ScanNode}
    (same : ∀ project, toId node.projectId = .ok project → a.scan project = b.scan project) :
    scan ops a node = scan ops b node := by
  refine bind_congr rfl fun kind _ => bind_congr rfl fun project ok => ?_
  exact bind_congr (readScan_agree (same project ok) _ _ _) fun _ _ => rfl

theorem readLookup_agree (agree : Agree ids service other) (inside : project ∈ ids) (column : String) (value : Bytes) :
    readLookup other column value project = readLookup service column value project := by
  have same := agree.lookups project inside column value
  unfold readLookup
  cases first : other.store.lookupCorrelated column value with
  | error e =>
    rw [first] at same
    cases second : service.store.lookupCorrelated column value with
    | error e' =>
      rw [second] at same
      cases same
      rfl
    | ok found =>
      rw [second] at same
      cases same
  | ok found =>
    rw [first] at same
    cases second : service.store.lookupCorrelated column value with
    | error e' =>
      rw [second] at same
      cases same
    | ok found' =>
      rw [second] at same
      have equal := Except.ok.inj same
      have rows := congrArg Scanned.rows equal
      have incomplete := congrArg Scanned.incomplete equal
      simp only [Scanned.ofProject] at rows incomplete
      simp only [bind, Logged.bind, Logged.lift, rows, incomplete]

theorem lookupScan_agree (agree : Agree ids service other) {input : QueryNodeBox} {predicate : Bytes}
    (inside : ∀ node, input.node = .scan → input.scan = some node →
      ∀ project, toId node.projectId = .ok project → project ∈ ids) :
    lookupScan other input predicate = lookupScan service input predicate := by
  unfold lookupScan
  split
  · rfl
  · rename_i isScan
    split
    · rfl
    · rename_i node part
      refine bind_congr rfl fun kind _ => bind_congr rfl fun project ok => ?_
      rw [agree.ops]
      refine bind_congr rfl fun found _ => ?_
      split
      · rfl
      · exact bind_congr (readLookup_agree agree (inside node (not_not.mp isScan) part project ok) _ _)
          fun _ _ => rfl

theorem askAll_agree {codec : Codec} {box last : QueryNodeBox}
    {aggregate : AggregateNode} {filters : List Bytes} {node : ScanNode} (part : box.aggregate = some aggregate)
    (below : belowFilters codec aggregate.input.length aggregate.input = .ok (filters, last))
    (scans : last.scan = some node) {as bs : List Scans}
    (same : List.Forall₂ (fun a b : Scans => ∀ project, toId node.projectId = .ok project →
      a.scan project = b.scan project) as bs) : askAll codec ops (codec.encodeQueryNodeBox box) as =
      askAll codec ops (codec.encodeQueryNodeBox box) bs := by
  have each : ∀ a b : Scans, (∀ project, toId node.projectId = .ok project →
      a.scan project = b.scan project) →
      partialAggregate codec ops a (codec.encodeQueryNodeBox box) =
        partialAggregate codec ops b (codec.encodeQueryNodeBox box) := by
    intro a b same
    unfold partialAggregate
    rw [codec.decode_encode]
    simp only [part]
    refine bind_congr rfl fun pair found => ?_
    obtain rfl := Except.ok.inj (below.symm.trans found)
    dsimp only
    split
    · rfl
    · rw [scans]
      exact bind_congr (scan_agree same) fun _ _ => rfl
  induction same with
  | nil => rfl
  | cons head tail ih =>
    unfold askAll
    dsimp only
    rw [each _ _ head]
    exact bind_congr rfl fun _ _ => bind_congr ih fun _ _ => rfl

theorem pushedDownAggregate_agree (agree : Agree ids service other) {box inner : QueryNodeBox}
    {aggregate : AggregateNode} {left : Nat} {found : List Id} (part : box.aggregate = some aggregate)
    (decoded : service.codec.child aggregate.input = .ok inner)
    (walked : collectProjects service.codec left inner = .ok found) (within : ∀ id ∈ found, id ∈ ids) :
    pushedDownAggregate other box aggregate = pushedDownAggregate service box aggregate := by
  unfold pushedDownAggregate
  rw [agree.codec, agree.ops]
  refine bind_congr rfl fun pair below => ?_
  obtain ⟨filters, last⟩ := pair
  dsimp only
  split
  · rfl
  · rename_i isScan
    cases scans : last.scan with
    | none => rfl
    | some node =>
      have project : ∀ project, toId node.projectId = .ok project → project ∈ ids :=
        fun project named => within project
          (collectProjects_belowFilters below decoded walked (not_not.mp isScan) scans named)
      have tablets := agree.tablets
      cases first : other.store.tablets with
      | none =>
        rw [first] at tablets
        cases second : service.store.tablets with
        | none => rfl
        | some bs =>
          rw [second] at tablets
          cases tablets
      | some as =>
        rw [first] at tablets
        cases second : service.store.tablets with
        | none =>
          rw [second] at tablets
          cases tablets
        | some bs =>
          rw [second] at tablets
          cases tablets with
          | some same =>
            refine bind_congr rfl fun _ _ => bind_congr ?_ fun _ _ => rfl
            refine askAll_agree part below scans (same.imp fun a b both named ok => ?_)
            exact both named (project named ok)

theorem executeAll_agree {run run' : Bytes → Exec Stage} {inputs : List Bytes}
    (each : ∀ input ∈ inputs, run input = run' input) (held : Table) :
    executeAll ops run held inputs = executeAll ops run' held inputs := by
  induction inputs generalizing held with
  | nil => rfl
  | cons input inputs ih =>
    refine bind_congr (each input mem_cons_self) fun stage _ => bind_congr rfl fun both _ => ?_
    exact ih (fun other inside => each other (mem_cons_of_mem _ inside)) both

variable (agree : Agree ids service other)
include agree

theorem execute_agree {left : Nat} {box : QueryNodeBox}
    {found : List Id} (walked : collectProjects service.codec left box = .ok found)
    (within : ∀ id ∈ found, id ∈ ids) : execute other left box = execute service left box := by
  induction left generalizing box found with
  | zero => rfl
  | succ left ih =>
    have down : ∀ {encoded : Bytes} {below : List Id},
        (service.codec.child encoded >>= collectProjects service.codec left) = .ok below →
        (∀ id ∈ below, id ∈ ids) →
        (do
          let inner ← Logged.lift (service.codec.child encoded)
          execute other left inner : Exec Stage) = (do
          let inner ← Logged.lift (service.codec.child encoded)
          execute service left inner : Exec Stage) := by
      intro encoded below walk within
      refine bind_congr rfl fun inner decoded => ?_
      have decoded : service.codec.child encoded = .ok inner := decoded
      rw [decoded] at walk
      exact ih walk within
    have whole := walked
    rw [collectProjects] at walked
    rw [execute, execute, agree.codec, agree.ops]
    cases kind : box.node with
    | scan =>
      dsimp only
      split
      · rfl
      · rename_i node part
        exact scan_agree fun project named => agree.scans project
          (within project (collectProjects_scan whole kind part named))
    | filter =>
      simp only [kind, walkPart] at walked
      dsimp only
      split
      · rfl
      · rename_i filter part
        simp only [part] at walked
        refine bind_congr rfl fun inner decoded => ?_
        have decoded : service.codec.child filter.input = .ok inner := decoded
        rw [decoded] at walked
        have walked : collectProjects service.codec left inner = .ok found := walked
        refine bind_congr (lookupScan_agree agree fun node isScan part project named =>
          within project (collectProjects_scan walked isScan part named)) fun stage _ => ?_
        split
        · rfl
        · exact bind_congr (ih walked within) fun _ _ => rfl
    | aggregate =>
      simp only [kind, walkPart] at walked
      dsimp only
      split
      · rfl
      · rename_i aggregate part
        simp only [part] at walked
        cases decoded : service.codec.child aggregate.input with
        | error e =>
          rw [decoded] at walked
          cases walked
        | ok inner =>
          have further := walked
          rw [decoded] at further
          refine bind_congr (pushedDownAggregate_agree agree part decoded further within) ?_
          intro stage _
          split
          · rfl
          · rw [← decoded]
            exact bind_congr (down walked within) fun _ _ => rfl
    | project =>
      simp only [kind, walkPart] at walked
      dsimp only
      split
      · rfl
      · rename_i project part
        simp only [part] at walked
        exact bind_congr (down walked within) fun _ _ => rfl
    | sort =>
      simp only [kind, walkPart] at walked
      dsimp only
      split
      · rfl
      · rename_i sort part
        simp only [part] at walked
        exact bind_congr (down walked within) fun _ _ => rfl
    | limit =>
      simp only [kind, walkPart] at walked
      dsimp only
      split
      · rfl
      · rename_i limit part
        simp only [part] at walked
        exact bind_congr (down walked within) fun _ _ => rfl
    | union =>
      simp only [kind] at walked
      dsimp only
      split
      · rfl
      · rfl
      · rename_i input inputs part
        simp only [part] at walked
        have each : ∀ encoded ∈ input :: inputs, (do
            let inner ← Logged.lift (service.codec.child encoded)
            execute other left inner : Exec Stage) = (do
            let inner ← Logged.lift (service.codec.child encoded)
            execute service left inner : Exec Stage) := by
          intro encoded inside
          obtain ⟨below, ok, further⟩ := walkAll_mem walked encoded inside
          exact down ok fun id mem => within id (further id mem)
        refine bind_congr (each input mem_cons_self) fun first _ => bind_congr ?_ fun _ _ => rfl
        exact executeAll_agree (fun other tail => each other (mem_cons_of_mem _ tail)) _
    | join => rfl

theorem trace_agree {query : TraceQuery} {allowPartial : Bool}
    (inside : ∀ project, toId query.projectId = .ok project → project ∈ ids) :
    trace other query allowPartial = trace service query allowPartial := by
  unfold trace
  rw [agree.ops]
  refine bind_congr rfl fun project ok => ?_
  split
  · rfl
  · exact bind_congr (readLookup_agree agree (inside project ok) _ _) fun _ _ => rfl

theorem graph_agree (inside : project ∈ ids) :
    graph other project = graph service project := by
  have held := agree.identity project inside
  unfold graph
  cases first : other.identity project with
  | none =>
    rw [first] at held
    cases second : service.identity project with
    | none =>
      rw [agree.now]
      exact bind_congr (readScan_agree (agree.scans project inside) _ _ _) fun _ _ => rfl
    | some b =>
      rw [second] at held
      cases held
  | some a =>
    rw [first] at held
    cases second : service.identity project with
    | none =>
      rw [second] at held
      cases held
    | some b =>
      rw [second] at held
      obtain rfl : a = b := Subtype.ext (Option.some.inj held)
      rfl

theorem domain_agree {form : QueryForm} {question : DomainQuery} {allowPartial : Bool}
    (inside : ∀ project, toId question.projectId = .ok project → project ∈ ids) :
    domain other form question allowPartial = domain service form question allowPartial := by
  unfold domain
  rw [agree.ops]
  refine bind_congr rfl fun project ok => bind_congr rfl fun _ _ => bind_congr ?_ fun _ _ => rfl
  have scans := agree.scans project (inside project ok)
  refine bind_congr (readScan_agree scans _ _ _) fun scanned _ => ?_
  refine bind_congr (graph_agree agree (inside project ok)) fun pair _ => ?_
  obtain ⟨held, short⟩ := pair
  dsimp only
  split
  · exact bind_congr (readScan_agree scans _ _ _) fun _ _ => rfl
  · rfl

theorem run_agree {request : QueryRequest}
    (named : projectsNamed service.codec request = .ok ids) : run other request = run service request := by
  obtain ⟨traced, asked, walked⟩ := projectsNamed_parts named
  unfold run
  split
  · rfl
  · split
    · unfold runNode
      split
      · rfl
      · rename_i encoded has
        obtain ⟨found, walk, within⟩ := walked encoded has
        rw [agree.codec, agree.ops]
        refine bind_congr rfl fun box decoded => ?_
        have decoded : service.codec.child encoded = .ok box := decoded
        rw [decoded] at walk
        exact bind_congr (execute_agree agree walk within) fun _ _ => rfl
    · split
      · rfl
      · rename_i query has
        obtain ⟨project, inside, own⟩ := traced query has
        refine trace_agree agree fun other named => ?_
        exact Except.ok.inj (own.symm.trans named) ▸ inside
    · split
      · rfl
      · rename_i question has
        obtain ⟨project, inside, own⟩ := asked question has
        refine domain_agree agree fun other named => ?_
        exact Except.ok.inj (own.symm.trans named) ▸ inside

omit agree

end

/-- Every row a query reads is of a project that `projects_named` lists for it, and no
other project's rows change what it answers. -/
theorem reads_only_named_projects (service : Service) (request : QueryRequest) (ids : List Id)
    (named : projectsNamed service.codec request = .ok ids) : (∀ row ∈ (run service request).log, row.projectId ∈ ids) ∧
      ∀ other, Agree ids service other → run other request = run service request := by
  refine ⟨keeps_run named fun project inside row own => ?_, fun other agree => run_agree agree named⟩
  rw [own]
  exact inside

instance encodableChar : Encodable Char := Encodable.ofLeftInverse Char.toNat Char.ofNat (by simp)
instance encodableString : Encodable String := Encodable.ofLeftInverse String.toList String.ofList (by simp)
instance encodableUInt8 : Encodable UInt8 := Encodable.ofLeftInverse UInt8.toNat UInt8.ofNat (by simp)
instance encodableUInt64 : Encodable UInt64 := Encodable.ofLeftInverse UInt64.toNat UInt64.ofNat (by simp)

deriving instance Encodable for TimeBasis
deriving instance Encodable for QueryNodeKind, Dataset, TimeRange, PropertyOrigin, FieldRef,
  Dimension, MeasureKind, Measure, CalendarUnit, Interval, SortKey, ScanNode, FilterNode,
  ProjectNode, AggregateNode, SortNode, LimitNode, JoinNode, QueryNodeBox

def unaryCodec : Codec where
  encodeQueryNodeBox node := List.replicate (Encodable.encode node) 0
  decodeQueryNodeBox bytes :=
    match (Encodable.decode bytes.length : Option QueryNodeBox) with
    | some node => .ok node
    | none => .error "no node"
  decode_encode := by simp

def idleOperators : Operators where
  zone := fun named => .ok (named.getD "UTC")
  exactMatch := fun _ => .ok none
  keep := fun _ rows => .ok rows
  fold := fun _ _ _ _ => .ok none
  gather := fun _ => .ok none
  aggregate := fun _ rows basis incomplete zone _ => .ok (.rows rows basis incomplete zone)
  project := fun _ stage => .ok stage
  materialize := fun
    | .rows rows _ incomplete _ => ⟨["name"], rows.map fun row => [.text row.name], incomplete⟩
    | .table table => table
  sort := fun _ table => .ok (.table table)
  limit := fun _ table => .ok table
  append := fun first second => .ok ⟨first.columns, first.rows ++ second.rows, first.incomplete⟩
  waterfall := fun rows => ⟨["name"], rows.map fun row => [.text row.name], false⟩
  check := fun _ _ _ => .ok ()
  answer := fun _ _ rows _ incomplete => .ok ⟨["name"], rows.map fun row => [.text row.name], incomplete⟩

def tracedRow (event project : Id) : EventRow :=
  { EventRow.new event "span" "work" 5 with projectId := project, traceId := some 9 }

def sharedTrace : Service where
  codec := unaryCodec
  store :=
    { scan := fun project _ _ _ =>
        .ok ⟨[tracedRow 1 1, tracedRow 2 2].filter fun row => row.projectId = project, false⟩
      own := by
        intro project start stop basis found read row inside
        cases read
        exact of_decide_eq_true (List.mem_filter.mp inside).2
      lookupCorrelated := fun _ value =>
        .ok ⟨[tracedRow 1 1, tracedRow 2 2].filter fun row => row.traceId.map Id.bytes = some value,
          false⟩
      tablets := none }
  ops := idleOperators
  now := 10
  identity := fun _ => none

def traceOfOne : QueryRequest where
  algebraVersion := 1
  allowPartial := false
  maxRows := none
  form := .trace
  node := none
  funnel := none
  retention := none
  path := none
  trace := some ⟨Id.bytes 1, Id.bytes 9⟩
  timeline := none
  attribution := none
  campaignSummary := none

theorem reads_only_named_projects_trace : (run sharedTrace traceOfOne).log = [tracedRow 1 1] ∧
      (∀ row ∈ (run sharedTrace traceOfOne).log, row.projectId ∈ [1]) ∧
      ∀ other, Agree [1] sharedTrace other → run other traceOfOne = run sharedTrace traceOfOne :=
  ⟨by decide, reads_only_named_projects sharedTrace traceOfOne [1] (by decide)⟩

end TallyOwl.Query
