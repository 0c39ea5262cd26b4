import TallyOwl.Wire.Item

/-! The collection policy a collector applies (`policy.rs`): one compiled snapshot, and what it
does to an item. A set of names is the list of them, and a float is its bits. -/
namespace TallyOwl.Collector
open Lib Wire

inductive CampaignLinking where
  | linked | unlinked | none
  deriving DecidableEq

structure CollectionPolicy where
  policyVersion : Nat
  enabledKinds : List TelemetryKind
  headSampleRate : UInt64
  maxEventBytes : Nat
  maxProperties : Nat
  redactKeys : Option (List String)
  blockedEventNames : Option (List String)
  blockedPropertyKeys : Option (List String)
  campaignLinking : Option CampaignLinking
  killSwitch : Option Bool

structure Snapshot where
  version : Nat
  enabledKinds : List String
  blockedEventNames : List String
  blockedPropertyKeys : List String
  redactPropertyKeys : List String
  campaignLinking : CampaignLinking
  killSwitch : Bool
  maxEventBytes : Nat
  maxProperties : Nat
  deriving DecidableEq

def redacted : String := "(redacted)"

/-- Between 0 and 1 on the bits of a float: those up to the bits of one, and negative zero. -/
def inUnit (rate : UInt64) : Bool := rate ≤ 0x3FF0000000000000 || rate == 0x8000000000000000

def noVersion : String :=
  "This collection policy carries no version, so there is no way to tell it from an older one. It is not applied and the last good policy is still in force."

def badRate (floatText : UInt64 → String) (rate : UInt64) : String :=
  s!"This collection policy asks for a sampling rate of {floatText rate}, which is not between 0 and 1. It is not applied."

def itemName (item : TelemetryItem) : String :=
  if let some event := item.event then event.name
  else if let some page := item.pageView then page.route
  else if let some interaction := item.interaction then s!"{interaction.target}:{interaction.action}"
  else if let some exposure := item.featureExposure then exposure.feature
  else if let some conversion := item.conversion then conversion.goal
  else if let some error := item.error then error.errorType
  else if let some span := item.span then span.operation
  else if let some metric := item.metricPoint then metric.metricName
  else if let some cost := item.campaignCost then cost.campaign
  else if let some touch := item.campaignTouch then touch.campaign.campaign.getD "campaign-touch"
  else if let some group := item.group then group.groupId
  else kindName item.envelope.kind

namespace Snapshot

def read (floatText : UInt64 → String) (policy : CollectionPolicy) : Except String Snapshot :=
  if policy.policyVersion = 0 then .error noVersion
  else if inUnit policy.headSampleRate = false then .error (badRate floatText policy.headSampleRate)
  else .ok {
    version := policy.policyVersion
    enabledKinds := policy.enabledKinds.map kindName
    blockedEventNames := policy.blockedEventNames.getD []
    blockedPropertyKeys := policy.blockedPropertyKeys.getD []
    redactPropertyKeys := policy.redactKeys.getD []
    campaignLinking := policy.campaignLinking.getD .linked
    killSwitch := policy.killSwitch.getD false
    maxEventBytes := policy.maxEventBytes
    maxProperties := policy.maxProperties }

variable (snapshot : Snapshot)

/-- Whether this snapshot collects one item. No listed kind means every kind. -/
def keeps (item : TelemetryItem) : Bool :=
  if snapshot.killSwitch then false
  else if !snapshot.enabledKinds.isEmpty &&
      !snapshot.enabledKinds.contains (kindName item.envelope.kind) then false
  else if item.envelope.kind = .campaignTouch ∧ snapshot.campaignLinking = .none then false
  else !snapshot.blockedEventNames.contains (itemName item)

def redact (p : Property) : Property :=
  if snapshot.redactPropertyKeys.contains p.key then { p with value := write (.text redacted) } else p

def applyProperties (item : TelemetryItem) : TelemetryItem :=
  { item with envelope := { item.envelope with
    properties := (item.envelope.properties.filter fun p =>
      !snapshot.blockedPropertyKeys.contains p.key).map snapshot.redact } }

/-- Remove the identity links from a campaign touch, when the policy asks. -/
def unlinkCampaign (item : TelemetryItem) : TelemetryItem :=
  if snapshot.campaignLinking ≠ .unlinked ∨ item.envelope.kind ≠ .campaignTouch then item
  else { item with envelope :=
    { item.envelope with sessionId := none, endUserId := none, anonymousId := none } }

@[simp] theorem redact_key (p : Property) : (snapshot.redact p).key = p.key := by
  unfold redact
  split <;> rfl

@[simp] theorem redact_origin (p : Property) : (snapshot.redact p).origin = p.origin := by
  unfold redact
  split <;> rfl

@[simp] theorem unlinkCampaign_properties (item : TelemetryItem) :
    (snapshot.unlinkCampaign item).envelope.properties = item.envelope.properties := by
  unfold unlinkCampaign
  split <;> rfl

theorem keeps_eq_false {item : TelemetryItem} : snapshot.keeps item = false ↔ snapshot.killSwitch = true ∨
      (snapshot.enabledKinds ≠ [] ∧ kindName item.envelope.kind ∉ snapshot.enabledKinds) ∨
      (item.envelope.kind = .campaignTouch ∧ snapshot.campaignLinking = .none) ∨
      itemName item ∈ snapshot.blockedEventNames := by
  unfold keeps
  grind

end Snapshot

end TallyOwl.Collector
