import TallyOwl.Collector.Policy

/-! Collection policy at the head (`policy.rs`): one document for each level, compiled widest first
into what one project or one source is held to. A set of names is the list of them, a document is
found by its level and what it names, and a float is its bits. -/
open List

namespace TallyOwl.Policy
open Lib Wire

inductive Scope where
  | installation | workspace | project | environment | source
  deriving DecidableEq

def Scope.asStr : Scope → String
  | .installation => "installation"
  | .workspace => "workspace"
  | .project => "project"
  | .environment => "environment"
  | .source => "source"

inductive Capture where
  | linked | unlinked | none
  deriving DecidableEq

def Capture.narrower : Capture → Capture → Capture
  | .none, _ => .none
  | _, .none => .none
  | .unlinked, _ => .unlinked
  | _, .unlinked => .unlinked
  | .linked, .linked => .linked

/-- One level's settings. An absent field inherits the wider level. -/
structure Document where
  scope : Option Scope
  scopeId : String
  enabledKinds : Option (List String)
  headSampleRate : Option UInt64
  sessionMaxLifetimeMs : Option Int
  maxEventBytes : Option Nat
  maxProperties : Option Nat
  blockedEventNames : List String
  blockedPropertyKeys : List String
  redactPropertyKeys : List String
  campaignLinking : Option Capture
  attributionNeedsConsent : Option Bool
  killSwitch : Option Bool
  deriving DecidableEq

namespace Document

def blank (scope : Scope) (scopeId : String) : Document where
  scope := some scope
  scopeId := scopeId
  enabledKinds := none
  headSampleRate := none
  sessionMaxLifetimeMs := none
  maxEventBytes := none
  maxProperties := none
  blockedEventNames := []
  blockedPropertyKeys := []
  redactPropertyKeys := []
  campaignLinking := none
  attributionNeedsConsent := none
  killSwitch := none

def noScope : String :=
  "This policy document does not say which level it sets. Name the scope."

def unnamed (scope : Scope) : String :=
  s!"A `{scope.asStr}` policy has to name which one it applies to."

def badRate (floatText : UInt64 → String) (rate : UInt64) : String :=
  s!"A head sampling rate is between 0 and 1, and this one is {floatText rate}."

def noKinds : String :=
  "This policy enables no telemetry kind at all. Use the kill switch if that is what you mean, so that it reads as deliberate."

def noLifetime : String :=
  "A session maximum lifetime has to be more than nothing."

/-- Whether this document could be compiled, checked before it is stored. -/
def check (floatText : UInt64 → String) (d : Document) : Except String Scope :=
  match d.scope with
  | none => .error noScope
  | some scope =>
      if scope ≠ .installation ∧ isBlank d.scopeId then .error (unnamed scope)
      else
        match d.headSampleRate.filter fun rate => !Collector.inUnit rate with
        | some rate => .error (badRate floatText rate)
        | none =>
            if d.enabledKinds = some [] then .error noKinds
            else if d.sessionMaxLifetimeMs.any (· ≤ 0) then .error noLifetime
            else .ok scope

structure Checked (d : Document) (scope : Scope) (id : String) : Prop where
  level : d.scope = some scope
  scopeId : d.scopeId = id
  named : scope ≠ Scope.installation → isBlank id = false
  kinds : d.enabledKinds ≠ some []

theorem checked_of_check {floatText : UInt64 → String} {d : Document} {scope : Scope}
    (passed : d.check floatText = .ok scope) : d.Checked scope d.scopeId := by
  unfold check at passed
  split at passed
  · cases passed
  split at passed <;> rename_i names
  · cases passed
  split at passed
  · cases passed
  split at passed <;> rename_i kinds
  · cases passed
  split at passed
  · cases passed
  injection passed with same
  subst same
  exact ⟨by assumption, rfl, fun narrow => by simpa using fun wide => names ⟨narrow, wide⟩, kinds⟩

/-- Whether this level stops an item by its switch, its blocked names or its campaign capture. -/
def Stops (d : Document) (kind name : String) : Prop :=
  d.killSwitch = some true ∨ name ∈ d.blockedEventNames ∨
    (kind = "campaign-touch" ∧ d.campaignLinking = some .none)

def Refuses (d : Document) (kind name : String) : Prop :=
  d.Stops kind name ∨ ∃ kinds, d.enabledKinds = some kinds ∧ kind ∉ kinds

def Hides (d : Document) (key : String) : Prop :=
  key ∈ d.blockedPropertyKeys ∨ key ∈ d.redactPropertyKeys

end Document

structure Compiled where
  version : Nat
  enabledKinds : List String
  headSampleRate : UInt64
  sessionMaxLifetimeMs : Int
  maxEventBytes : Nat
  maxProperties : Nat
  blockedEventNames : List String
  blockedPropertyKeys : List String
  redactPropertyKeys : List String
  campaignLinking : Capture
  attributionNeedsConsent : Bool
  killSwitch : Bool
  fromLevels : List String
  deriving DecidableEq

def Compiled.default : Compiled where
  version := 0
  enabledKinds := []
  headSampleRate := 0x3FF0000000000000
  sessionMaxLifetimeMs := 12 * 3600000
  maxEventBytes := 64 * 1024
  maxProperties := 256
  blockedEventNames := []
  blockedPropertyKeys := []
  redactPropertyKeys := []
  campaignLinking := .linked
  attributionNeedsConsent := false
  killSwitch := false
  fromLevels := []

def campaignKeys : List String :=
  ["campaign", "campaign_source", "campaign_medium", "campaign_term", "campaign_content",
    "campaign_click_id", "campaign_channel", "campaign_classifier_version", "referrer",
    "referrer_domain", "landing_route"]

inductive Captured where
  | kept
  | refused
  | unlinked (count : Nat)
  | stripped (count : Nat)
  deriving DecidableEq

def without (keys : List String) (row : EventRow) : EventRow :=
  { row with properties := row.properties.filter fun x => !keys.contains x.1 }

def strip (keys : List String) (row : EventRow) : Nat × EventRow :=
  (row.properties.countP (fun x => keys.contains x.1), without keys row)

def redacted : String := "(redacted)"

namespace Compiled
variable (c : Compiled)

/-- Whether one row survives this policy. No listed kind means every kind. -/
def keeps (row : EventRow) : Bool :=
  if c.killSwitch then false
  else if !c.enabledKinds.isEmpty && !c.enabledKinds.contains row.kind then false
  else !c.blockedEventNames.contains row.name

def capture (row : EventRow) : Captured × EventRow :=
  let stripped := strip campaignKeys row
  let strippedAs := if 0 < stripped.1 then Captured.stripped stripped.1 else .kept
  match c.campaignLinking with
  | .linked => (.kept, row)
  | .none => if row.kind = "campaign-touch" then (.refused, row) else (strippedAs, stripped.2)
  | .unlinked =>
      if row.kind = "campaign-touch" then
        let links := strip ["end_user_id", "anonymous_id"] { row with sessionId := none }
        let removed := (if row.sessionId.isSome then 1 else 0) + links.1
        (if 0 < removed then .unlinked removed else .kept, links.2)
      else (strippedAs, stripped.2)

def redact (x : String × PropertyValue × String) : String × PropertyValue × String :=
  if c.redactPropertyKeys.contains x.1 then (x.1, .text redacted, x.2.2) else x

def applyProperties (row : EventRow) : EventRow :=
  { row with properties := (row.properties.filter fun x => !c.blockedPropertyKeys.contains x.1).map c.redact }

/-- Whether this policy stops an item by its switch, its blocked names or its campaign capture. -/
def Stops (kind name : String) : Prop :=
  c.killSwitch = true ∨ name ∈ c.blockedEventNames ∨
    (kind = "campaign-touch" ∧ c.campaignLinking = .none)

def Refuses (kind name : String) : Prop :=
  c.Stops kind name ∨ (c.enabledKinds ≠ [] ∧ kind ∉ c.enabledKinds)

def Hides (key : String) : Prop := key ∈ c.blockedPropertyKeys ∨ key ∈ c.redactPropertyKeys

def take (id : String) (scope : Scope) (d : Document) : Compiled where
  version := c.version
  enabledKinds := d.enabledKinds.getD c.enabledKinds
  headSampleRate := d.headSampleRate.getD c.headSampleRate
  sessionMaxLifetimeMs := d.sessionMaxLifetimeMs.getD c.sessionMaxLifetimeMs
  maxEventBytes := d.maxEventBytes.getD c.maxEventBytes
  maxProperties := d.maxProperties.getD c.maxProperties
  blockedEventNames := c.blockedEventNames ++ d.blockedEventNames
  blockedPropertyKeys := c.blockedPropertyKeys ++ d.blockedPropertyKeys
  redactPropertyKeys := c.redactPropertyKeys ++ d.redactPropertyKeys
  campaignLinking := d.campaignLinking.elim c.campaignLinking c.campaignLinking.narrower
  attributionNeedsConsent := c.attributionNeedsConsent || d.attributionNeedsConsent.getD false
  killSwitch := c.killSwitch || d.killSwitch.getD false
  fromLevels := c.fromLevels ++ [if id = "" then scope.asStr else s!"{scope.asStr}:{id}"]

end Compiled

/-- Every stored policy document. One is stored only when it passes its check. -/
structure Policies where
  documents : Scope → String → Option Document
  version : Nat
  checked : ∀ scope id d, documents scope id = some d → d.Checked scope id

namespace Policies

def new : Policies where
  documents := fun _ _ => none
  version := 0
  checked := by
    intro scope id d absent
    cases absent

def one (d : Document) {scope : Scope} {id : String} (checked : d.Checked scope id) : Policies where
  documents := fun s i => if s = scope ∧ i = id then some d else none
  version := 1
  checked := by
    intro s i other found
    split at found <;> rename_i same
    · cases found
      rw [same.1, same.2]
      exact checked
    · cases found

/-- Store one level's document. Invalid policy never replaces valid policy. -/
def put (floatText : UInt64 → String) (p : Policies) (d : Document) : Except String Policies :=
  match passed : d.check floatText with
  | .error reason => .error reason
  | .ok scope => .ok {
      documents := fun s id => if s = scope ∧ id = d.scopeId then some d else p.documents s id
      version := p.version + 1
      checked := by
        intro s id other found
        split at found <;> rename_i same
        · cases found
          rw [same.1, same.2]
          exact Document.checked_of_check passed
        · exact p.checked s id other found }

def levels (workspaceId projectId environment sourceId : String) : List (Scope × String) :=
  [(.installation, ""), (.workspace, workspaceId), (.project, projectId), (.environment, environment),
    (.source, sourceId)]

def level (p : Policies) (out : Compiled) (x : Scope × String) : Compiled :=
  match p.documents x.1 x.2 with
  | none => out
  | some d => out.take x.2 x.1 d

def compile (p : Policies) (workspaceId projectId environment sourceId : String) : Compiled :=
  (levels workspaceId projectId environment sourceId).foldl p.level { Compiled.default with version := p.version }

end Policies

structure Source where
  workspaceId : Id
  projectId : Id
  sourceId : Id
  deriving DecidableEq

/-- The head's policy: the documents, and what was compiled for a project since. -/
structure PolicyService where
  held : Policies
  compiled : Id → Option Compiled

namespace PolicyService

def put (floatText : UInt64 → String) (s : PolicyService) (d : Document) : Except String PolicyService :=
  (s.held.put floatText d).map fun held => ⟨held, fun _ => none⟩

def compileFor (s : PolicyService) (projectId : Id) : Compiled :=
  s.held.compile "" (hex projectId.bytes) "" ""

def forProject (s : PolicyService) (projectId : Id) : Compiled :=
  (s.compiled projectId).getD (s.compileFor projectId)

def remember (s : PolicyService) (projectId : Id) (c : Compiled) : PolicyService :=
  { s with compiled := fun p => if p = projectId then some c else s.compiled p }

end PolicyService

def allKinds : List TelemetryKind :=
  [.event, .pageView, .sessionStart, .sessionEnd, .sessionHeartbeat, .interaction, .featureExposure,
    .identify, .aliasOf, .group, .conversion, .error, .span, .metricPoint, .campaignTouch, .campaignCost]

def collectorKindOf (name : String) : Option TelemetryKind := allKinds.find? fun k => kindName k == name

def toWireCapture : Capture → Collector.CampaignLinking
  | .linked => .linked
  | .unlinked => .unlinked
  | .none => .none

def nonempty (names : List String) : Option (List String) := if names = [] then none else some names

def toWireSnapshot (c : Compiled) : Collector.CollectionPolicy where
  policyVersion := c.version
  enabledKinds := c.enabledKinds.filterMap collectorKindOf
  headSampleRate := c.headSampleRate
  maxEventBytes := c.maxEventBytes
  maxProperties := c.maxProperties
  redactKeys := nonempty c.redactPropertyKeys
  blockedEventNames := nonempty c.blockedEventNames
  blockedPropertyKeys := nonempty c.blockedPropertyKeys
  campaignLinking := some (toWireCapture c.campaignLinking)
  killSwitch := some c.killSwitch

def PolicyService.snapshotFor (s : PolicyService) (source : Source) : Collector.CollectionPolicy :=
  toWireSnapshot (s.held.compile (hex source.workspaceId.bytes) (hex source.projectId.bytes) ""
    (hex source.sourceId.bytes))

section

def narrowest (docs : List Document) : Option (List String) :=
  docs.reverse.findSome? fun d => d.enabledKinds

/-- What a compilation over some documents refuses: any one's kill switch, name or capture, and the
kinds that the narrowest list leaves out. -/
def RefusedOver (docs : List Document) (kind name : String) : Prop :=
  (∃ d ∈ docs, d.Stops kind name) ∨ ∃ kinds, narrowest docs = some kinds ∧ kind ∉ kinds

variable (p : Policies)

def Policies.found (xs : List (Scope × String)) : List Document := xs.filterMap fun x => p.documents x.1 x.2

def Policies.above (source : Source) : List Document :=
  p.found [(.installation, ""), (.workspace, hex source.workspaceId.bytes),
    (.project, hex source.projectId.bytes), (.source, hex source.sourceId.bytes)]

def Policies.ofProject (projectId : Id) : List Document :=
  p.found [(.installation, ""), (.project, hex projectId.bytes)]

variable {p : Policies}

theorem Policies.blank_absent {scope : Scope} (narrow : scope ≠ .installation) : p.documents scope "" = none := by
  cases found : p.documents scope "" with
  | none => rfl
  | some d => cases (p.checked scope "" d found).named narrow

theorem Policies.foldl_level (has : Compiled → Prop) (own : Document → Prop)
    (takes : ∀ c id scope d, has (c.take id scope d) ↔ has c ∨ own d) (xs : List (Scope × String))
    (out : Compiled) : has (xs.foldl p.level out) ↔ has out ∨ ∃ d ∈ p.found xs, own d := by
  induction xs generalizing out with
  | nil => simp [found]
  | cons x rest ih =>
    rw [foldl_cons, ih]
    unfold level found
    cases held : p.documents x.1 x.2 with
    | none => simp [held]
    | some d => simp [held, takes, or_assoc]

theorem Policies.kinds_foldl (xs : List (Scope × String)) (out : Compiled) :
    (xs.foldl p.level out).enabledKinds = (narrowest (p.found xs)).getD out.enabledKinds := by
  induction xs generalizing out with
  | nil => rfl
  | cons x rest ih =>
    rw [foldl_cons, ih]
    unfold level found narrowest
    cases held : p.documents x.1 x.2 with
    | none => simp [held]
    | some d =>
      simp only [filterMap_cons, held, reverse_cons, findSome?_append]
      cases (List.filterMap (fun x => p.documents x.1 x.2) rest).reverse.findSome? (·.enabledKinds) with
      | some kinds => rfl
      | none => cases kinds : d.enabledKinds <;> simp [Compiled.take, kinds]

theorem narrowest_ne_nil {docs : List Document} (checked : ∀ d ∈ docs, d.enabledKinds ≠ some []) :
    narrowest docs ≠ some [] := by
  intro empty
  obtain ⟨d, inside, kinds⟩ := exists_of_findSome?_eq_some empty
  exact checked d (mem_reverse.mp inside) kinds

theorem Policies.kinds_found (xs : List (Scope × String)) : ∀ d ∈ p.found xs, d.enabledKinds ≠ some [] := by
  intro d inside
  obtain ⟨x, -, found⟩ := mem_filterMap.mp inside
  exact (p.checked x.1 x.2 d found).kinds

theorem Capture.narrower_eq_none {a b : Capture} : a.narrower b = .none ↔ a = .none ∨ b = .none := by
  cases a <;> cases b <;> decide

theorem Compiled.stops_take {c : Compiled} {id : String} {scope : Scope} {d : Document} {kind name : String} :
    (c.take id scope d).Stops kind name ↔ c.Stops kind name ∨ d.Stops kind name := by
  have kill : (c.take id scope d).killSwitch = true ↔ c.killSwitch = true ∨ d.killSwitch = some true := by
    cases stated : d.killSwitch <;> simp [take, stated]
  have capture : (c.take id scope d).campaignLinking = .none ↔
      c.campaignLinking = .none ∨ d.campaignLinking = some .none := by
    cases stated : d.campaignLinking <;> simp [take, stated, Capture.narrower_eq_none]
  have names : name ∈ (c.take id scope d).blockedEventNames ↔
      name ∈ c.blockedEventNames ∨ name ∈ d.blockedEventNames := mem_append
  unfold Stops Document.Stops
  rw [kill, capture, names]
  grind

variable {xs : List (Scope × String)} {version : Nat}

theorem Policies.stops_foldl {kind name : String} :
    (xs.foldl p.level { Compiled.default with version := version }).Stops kind name ↔
      ∃ d ∈ p.found xs, d.Stops kind name := by
  rw [p.foldl_level (fun c => c.Stops kind name) (fun d => d.Stops kind name)
    (fun _ _ _ _ => Compiled.stops_take)]
  simp [Compiled.Stops, Compiled.default]

theorem Policies.kinds_compiled :
    (xs.foldl p.level { Compiled.default with version := version }).enabledKinds =
      (narrowest (p.found xs)).getD [] := p.kinds_foldl xs _

theorem Policies.refuses_foldl {kind name : String} :
    (xs.foldl p.level { Compiled.default with version := version }).Refuses kind name ↔
      RefusedOver (p.found xs) kind name := by
  have full := narrowest_ne_nil (p.kinds_found xs)
  unfold Compiled.Refuses RefusedOver
  rw [stops_foldl, kinds_compiled]
  cases stated : narrowest (p.found xs) with
  | none => simp
  | some kinds =>
    have listed : kinds ≠ [] := fun empty => full (stated.trans (congrArg some empty))
    simp [listed]

theorem Policies.hides_foldl {key : String} :
    (xs.foldl p.level { Compiled.default with version := version }).Hides key ↔
      ∃ d ∈ p.found xs, d.Hides key := by
  rw [p.foldl_level (fun c => c.Hides key) (fun d => d.Hides key)
    (by intro c id scope d; simp only [Compiled.Hides, Document.Hides, Compiled.take, mem_append]; grind)]
  simp [Compiled.Hides, Compiled.default]

theorem Policies.found_project (projectId : Id) :
    p.found (levels "" (hex projectId.bytes) "" "") = p.ofProject projectId := by
  have workspace : p.documents .workspace "" = none := blank_absent (by decide)
  have environment : p.documents .environment "" = none := blank_absent (by decide)
  have source : p.documents .source "" = none := blank_absent (by decide)
  simp only [levels, ofProject, found, filterMap_cons, workspace, environment, source]

theorem Policies.found_source (source : Source) :
    p.found (levels (hex source.workspaceId.bytes) (hex source.projectId.bytes) "" (hex source.sourceId.bytes)) =
      p.above source := by
  have environment : p.documents .environment "" = none := blank_absent (by decide)
  simp only [levels, above, found, filterMap_cons, environment]

variable {s : PolicyService} {projectId : Id} {kind name key : String}

theorem PolicyService.refuses_compileFor :
    (s.compileFor projectId).Refuses kind name ↔ RefusedOver (s.held.ofProject projectId) kind name := by
  rw [compileFor, Policies.compile, Policies.refuses_foldl, Policies.found_project]

theorem PolicyService.hides_compileFor :
    (s.compileFor projectId).Hides key ↔ ∃ d ∈ s.held.ofProject projectId, d.Hides key := by
  rw [compileFor, Policies.compile, Policies.hides_foldl, Policies.found_project]

end

end TallyOwl.Policy
