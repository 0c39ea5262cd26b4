import Mathlib.Data.List.Destutter
import TallyOwl.Head.Identity
import TallyOwl.Lib.Buckets
import TallyOwl.Lib.StableSort

/-! What a query reads from an identity graph, and the graph as it was before a moment (`identity.rs`). -/
namespace TallyOwl.Identify
open Lib

inductive Basis where
  | endUser
  | session
  | group
  deriving DecidableEq

def latestTrait (history : List (PropertyValue × Int)) : Option (PropertyValue × Int) := history.getLast?

namespace Identity
variable (identity : Identity)

/-- The graph as it was before a moment. The merges are applied again in time order. -/
def boundedTo (moment : Int) : Identity :=
  let merges := (identity.merges.filter (·.moment < moment)).insertionSort fun a b =>
    toLex (a.moment, a.eventId) ≤ toLex (b.moment, b.eventId)
  { projectId := identity.projectId
    links := (identity.links.mapValues fun _ links => links.filter (·.moment < moment)).filter fun _ kept => kept ≠ []
    merges := merges
    mergedInto := merges.foldl (fun into merge => into.insert merge.fromId merge.toId) ∅
    memberships :=
      (identity.memberships.mapValues fun _ held => held.filter (·.since < moment)).filter fun _ kept => kept ≠ []
    traits := (identity.traits.mapValues fun _ held =>
      (held.mapValues fun _ history => history.filter (·.2 < moment)).filter fun _ inside => inside ≠ []).filter
        fun _ kept => kept.entries ≠ []
    foreignRowsIgnored := identity.foreignRowsIgnored
    folded := identity.folded
    coveredBefore := min identity.coveredBefore moment }

/-- Whether the last `identify` of a timeline gave it to a person. -/
def resolvesTo (holder who : String) : Bool :=
  ((identity.links.get? holder).bind (lastMax Link.moment)).any fun link => identity.canonical link.endUserId = who

/-- The groups one end user belonged to at a moment, also under the timelines that are theirs. -/
def groupsOf (who : String) (moment : Int) : List Membership :=
  let own := (identity.memberships.bucket who).filter (·.since ≤ moment)
  let out := identity.memberships.entries.foldl (fun out holder =>
    if holder.1 = who then out
    else if identity.resolvesTo holder.1 who then out ++ holder.2.filter (·.since ≤ moment)
    else out) own
  (out.insertionSort fun a b => toLex (a.since, a.groupId) ≤ toLex (b.since, b.groupId)).destutter
    fun kept next => kept.groupId ≠ next.groupId

def isNewer (canonical key : String) (moment : Int) : Bool :=
  (((identity.traits.entries.filter fun holder => identity.canonical holder.1 = canonical).filterMap fun holder =>
    holder.2.get? key).filterMap latestTrait).all fun held => held.2 ≤ moment

def traitsOf (who : String) : OrderedMap String PropertyValue :=
  let canonical := identity.canonical who
  identity.traits.entries.foldl (fun out holder =>
    if identity.canonical holder.1 ≠ canonical then out
    else holder.2.entries.foldl (fun out entry =>
      match latestTrait entry.2 with
      | none => out
      | some latest =>
          -- the latest wins by the time the trait was set
          if out.get? entry.1 ≠ none ∧ identity.isNewer canonical entry.1 latest.2 = false then out
          else out.insert entry.1 latest.1) out) ∅

def keyFor (row : EventRow) (basis : Basis) (resolution : Resolution) : Option String :=
  match basis with
  | .endUser => identity.who row resolution
  | .session => row.sessionId
  | .group => (identity.who row resolution).bind fun who =>
      (identity.groupsOf who row.occurredAt).head?.map Membership.groupId

end Identity
end TallyOwl.Identify
