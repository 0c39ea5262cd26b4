import TallyOwl.Lib.OrderedMap
import TallyOwl.Store.Tombstone
import Mathlib.Data.String.Basic
import Mathlib.Data.List.Sort

/-! Who a row belongs to (`identity.rs`): a graph of one project, folded from its
`identify`, `alias` and `group` rows in time order. -/
open List TallyOwl.Lib.OrderedMap

namespace TallyOwl.Identify
open Lib

def endUserId : String := "end_user_id"

def anonymousId : String := "anonymous_id"

/-- How long an alias chain may be before it is treated as a loop. -/
def maxAliasDepth : Nat := 64

/-- Which identity a query means: who a row belonged to when it happened, or belongs to now. -/
inductive Resolution where
  | eventTime
  | latestKnown
  deriving DecidableEq

/-- One `identify`: an anonymous timeline joined a known end user. -/
structure Link where
  anonymousId : String
  endUserId : String
  moment : Int
  eventId : Id
  deriving DecidableEq

/-- One `alias`: two known identifiers are one person. -/
structure Merge where
  fromId : String
  toId : String
  moment : Int
  eventId : Id
  deriving DecidableEq

structure Membership where
  groupId : String
  groupKind : Option String
  since : Int
  deriving DecidableEq

structure Identity where
  projectId : Id
  /-- Anonymous identifier to every `identify` for it, in time order. -/
  links : OrderedMap String (List Link)
  merges : List Merge
  mergedInto : OrderedMap String String
  memberships : OrderedMap String (List Membership)
  traits : OrderedMap String (OrderedMap String (List (PropertyValue × Int)))
  foreignRowsIgnored : Nat
  folded : OrderedMap Id Unit
  coveredBefore : Int

def text (row : EventRow) (key : String) : Option String :=
  match row.property key with
  | some (.text value) => if value = "" then none else some value
  | _ => none

/-- The last of the elements with the greatest key, as `max_by_key` picks it. -/
def lastMax {α : Type} (key : α → Int) (xs : List α) : Option α :=
  xs.foldl (fun best x => if best.any (fun b => key x < key b) then best else some x) none

/-- Follow alias edges until none is left, one comes back, or the fuel is gone. -/
def follow (mergedInto : OrderedMap String String) : Nat → (seen : List String) → String → String
  | 0, _, here => here
  | fuel + 1, seen, here =>
      if here ∈ seen then here
      else
        match mergedInto.get? here with
        | some next => if next = here then here else follow mergedInto fuel (here :: seen) next
        | none => here

namespace Identity
variable (identity : Identity)

def takeTraits (endUser : String) (row : EventRow) : Identity :=
  let held := (identity.traits.get? endUser).getD ∅
  let held := row.properties.foldl (fun held entry =>
    if entry.1 ∈ [Identify.endUserId, Identify.anonymousId, "span_id"] then held
    else
      let history := (held.get? entry.1).getD [] ++ [(entry.2.1, row.occurredAt)]
      held.insert entry.1 (history.insertionSort fun a b => a.2 ≤ b.2)) held
  { identity with traits := identity.traits.insert endUser held }

def takeIdentify (row : EventRow) : Identity :=
  match text row Identify.endUserId, text row Identify.anonymousId with
  | some endUser, some anonymous =>
      let held := (identity.links.get? anonymous).getD []
      takeTraits { identity with
        links := identity.links.insert anonymous
          (held ++ [⟨anonymous, endUser, row.occurredAt, row.eventId⟩]) } endUser row
  | _, _ => identity

def takeAlias (row : EventRow) : Identity :=
  match text row "from_id", text row "to_id" with
  | some fromId, some toId =>
      if fromId = toId then identity
      else { identity with
        merges := identity.merges ++ [⟨fromId, toId, row.occurredAt, row.eventId⟩]
        mergedInto := identity.mergedInto.insert fromId toId }
  | _, _ => identity

def takeGroup (row : EventRow) : Identity :=
  match text row "group_id", (text row Identify.endUserId).or (text row Identify.anonymousId) with
  | some groupId, some who =>
      let held := (identity.memberships.get? who).getD []
      let held :=
        if held.any fun m => m.groupId = groupId ∧ m.since ≤ row.occurredAt then held
        else held ++ [⟨groupId, text row "group_kind", row.occurredAt⟩]
      { identity with memberships := identity.memberships.insert who held }
  | _, _ => identity

def take (row : EventRow) : Identity :=
  let identity := { identity with folded := identity.folded.insert row.eventId () }
  if row.kind = "identify" then identity.takeIdentify row
  else if row.kind = "alias" then identity.takeAlias row
  else if row.kind = "group" then identity.takeGroup row
  else identity

/-- Fold more rows into a graph, in time order, and skip those it has. -/
def apply (rows : List EventRow) : Identity :=
  let mine := rows.filter fun row => row.projectId = identity.projectId
  let ordered := (mine.filter fun row =>
      row.kind ∈ ["identify", "alias", "group"] ∧ identity.folded.get? row.eventId = none).insertionSort
    fun a b => toLex (a.occurredAt, a.eventId) ≤ toLex (b.occurredAt, b.eventId)
  ordered.foldl take
    { identity with foreignRowsIgnored := identity.foreignRowsIgnored + (rows.length - mine.length) }

def start (projectId : Id) : Identity := ⟨projectId, ∅, [], ∅, ∅, ∅, 0, ∅, -2 ^ 63⟩

def build (projectId : Id) (rows : List EventRow) : Identity := (start projectId).apply rows

def canonical (endUser : String) : String := follow identity.mergedInto maxAliasDepth [] endUser

/-- The `identify` that decides who a row of an anonymous timeline belongs to. -/
def linked (anonymous : String) (row : EventRow) : Resolution → Option Link
  | .eventTime => (identity.links.get? anonymous).bind fun links =>
      lastMax Link.moment (links.filter fun link => link.moment ≤ row.occurredAt)
  | .latestKnown => (identity.links.get? anonymous).bind (lastMax Link.moment)

def who (row : EventRow) (resolution : Resolution) : Option String :=
  if row.projectId ≠ identity.projectId then none
  else
    match text row Identify.endUserId with
    | some known => some (identity.canonical known)
    | none => (text row Identify.anonymousId).map fun anonymous =>
        match identity.linked anonymous row resolution with
        | some link => identity.canonical link.endUserId
        | none => anonymous

/-- Every identifier that is the same person as this one, as an erasure collects them. -/
def identifiers (who : String) : OrderedMap String Unit :=
  let canonical := identity.canonical who
  let out := ((∅ : OrderedMap String Unit).insert who ()).insert canonical ()
  let out := identity.mergedInto.entries.foldl (fun out merge =>
    if identity.canonical merge.1 = canonical then out.insert merge.1 () else out) out
  identity.links.entries.foldl (fun out timeline =>
    if timeline.2.any fun link => identity.canonical link.endUserId = canonical then
      timeline.2.foldl (fun out link => out.insert link.endUserId ()) (out.insert timeline.1 ())
    else out) out

def everyIdentifierOf (who : String) : List String := (identity.identifiers who).entries.map Prod.fst

end Identity

section
variable (identity : Identity)

@[simp] theorem projectId_take (row : EventRow) : (identity.take row).projectId = identity.projectId := by
  simp only [Identity.take, Identity.takeIdentify, Identity.takeAlias, Identity.takeGroup, Identity.takeTraits]
  split
  · split <;> rfl
  · split
    · split
      · split <;> rfl
      · rfl
    · split
      · split <;> rfl
      · rfl

theorem projectId_foldl (rows : List EventRow) :
    (rows.foldl Identity.take identity).projectId = identity.projectId := by
  induction rows generalizing identity with
  | nil => rfl
  | cons row rest ih => rw [foldl_cons, ih, projectId_take]

@[simp] theorem projectId_build (projectId : Id) (rows : List EventRow) :
    (Identity.build projectId rows).projectId = projectId := projectId_foldl _ _

theorem projectId_of_who {identity : Identity} {row : EventRow} {resolution : Resolution} {who : String}
    (found : identity.who row resolution = some who) : row.projectId = identity.projectId := by
  unfold Identity.who at found
  split at found
  · cases found
  · rename_i same
    exact not_not.mp same

end

section
variable {identity : Identity} {person x : String}

/-- An anonymous timeline that some `identify` gave to this person. -/
def Identity.TimelineOf (identity : Identity) (person : String) (links : List Link) : Prop :=
  ∃ link ∈ links, identity.canonical link.endUserId = identity.canonical person

/-- What an erasure collects: the name it was given, where that resolves to, every merged name
that resolves there too, and each timeline of the person with every end user it was given to. -/
inductive Collected (identity : Identity) (person : String) : String → Prop where
  | named : Collected identity person person
  | canonical : Collected identity person (identity.canonical person)
  | merged {fromId toId : String} (into : identity.mergedInto.get? fromId = some toId)
      (same : identity.canonical fromId = identity.canonical person) : Collected identity person fromId
  | timeline {anonymous : String} {links : List Link} (there : identity.links.get? anonymous = some links)
      (theirs : identity.TimelineOf person links) : Collected identity person anonymous
  | linked {anonymous : String} {links : List Link} (there : identity.links.get? anonymous = some links)
      (theirs : identity.TimelineOf person links) {link : Link} (one : link ∈ links) :
      Collected identity person link.endUserId

def keys (out : OrderedMap String Unit) : List String := out.entries.map Prod.fst

theorem mem_keys {out : OrderedMap String Unit} : x ∈ keys out ↔ out.get? x = some () := by
  rw [keys, mem_map, get?_eq_some]
  constructor
  · rintro ⟨⟨name, ⟨⟩⟩, inside, rfl⟩
    exact inside
  · intro inside
    exact ⟨_, inside, rfl⟩

theorem mem_keys_insert {out : OrderedMap String Unit} {y : String} :
    x ∈ keys (out.insert y ()) ↔ x = y ∨ x ∈ keys out := by
  rw [mem_keys, mem_keys, get?_insert]
  by_cases same : x = y <;> simp [same]

theorem mem_keys_foldl {α : Type} {xs : List α} {put : OrderedMap String Unit → α → OrderedMap String Unit}
    (adds : α → String → Prop) (each : ∀ out a x, x ∈ keys (put out a) ↔ adds a x ∨ x ∈ keys out)
    (out : OrderedMap String Unit) : x ∈ keys (xs.foldl put out) ↔ (∃ a ∈ xs, adds a x) ∨ x ∈ keys out := by
  induction xs generalizing out with
  | nil => simp
  | cons a rest ih =>
    rw [foldl_cons, ih, each]
    simp only [mem_cons, exists_eq_or_imp]
    rw [or_assoc, or_left_comm]

theorem mem_everyIdentifierOf : x ∈ identity.everyIdentifierOf person ↔ Collected identity person x := by
  have merged : ∀ (out : OrderedMap String Unit) (merge : String × String) (x : String),
      x ∈ keys (if identity.canonical merge.1 = identity.canonical person then out.insert merge.1 () else out) ↔
        (identity.canonical merge.1 = identity.canonical person ∧ x = merge.1) ∨ x ∈ keys out := by
    intro out merge x
    split
    · rename_i same
      simp [mem_keys_insert, same]
    · rename_i other
      simp [other]
  have joined : ∀ (out : OrderedMap String Unit) (timeline : String × List Link) (x : String),
      x ∈ keys (if timeline.2.any fun link => identity.canonical link.endUserId = identity.canonical person then
          timeline.2.foldl (fun out link => out.insert link.endUserId ()) (out.insert timeline.1 ())
        else out) ↔
        (identity.TimelineOf person timeline.2 ∧ (x = timeline.1 ∨ ∃ link ∈ timeline.2, x = link.endUserId)) ∨
          x ∈ keys out := by
    intro out timeline x
    have theirs : (timeline.2.any fun link => identity.canonical link.endUserId = identity.canonical person) =
        true ↔ identity.TimelineOf person timeline.2 := by
      simp [Identity.TimelineOf]
    split
    · rename_i found
      rw [mem_keys_foldl (fun (link : Link) x => x = link.endUserId) fun _ _ _ => mem_keys_insert,
        mem_keys_insert]
      simp only [theirs.mp found, true_and]
      rw [or_assoc, or_left_comm]
    · rename_i none
      simp [mt theirs.mpr none]
  have collected : x ∈ keys (identity.identifiers person) ↔
      (∃ timeline ∈ identity.links.entries, identity.TimelineOf person timeline.2 ∧
        (x = timeline.1 ∨ ∃ link ∈ timeline.2, x = link.endUserId)) ∨
      (∃ merge ∈ identity.mergedInto.entries,
        identity.canonical merge.1 = identity.canonical person ∧ x = merge.1) ∨
      x = identity.canonical person ∨ x = person := by
    unfold Identity.identifiers
    rw [mem_keys_foldl _ joined, mem_keys_foldl _ merged, mem_keys_insert, mem_keys_insert]
    simp [keys]
  change x ∈ keys (identity.identifiers person) ↔ _
  rw [collected]
  constructor
  · rintro (⟨⟨anonymous, links⟩, inside, theirs, named⟩ | ⟨⟨fromId, toId⟩, inside, same, rfl⟩ | rfl | rfl)
    · have there := get?_eq_some.mpr inside
      rcases named with rfl | ⟨link, one, rfl⟩
      · exact .timeline there theirs
      · exact .linked there theirs one
    · exact .merged (get?_eq_some.mpr inside) same
    · exact .canonical
    · exact .named
  · rintro (_ | _ | ⟨into, same⟩ | ⟨there, theirs⟩ | ⟨there, theirs, one⟩)
    · exact .inr (.inr (.inr rfl))
    · exact .inr (.inr (.inl rfl))
    · exact .inr (.inl ⟨_, get?_eq_some.mp into, same, rfl⟩)
    · exact .inl ⟨_, get?_eq_some.mp there, theirs, .inl rfl⟩
    · exact .inl ⟨_, get?_eq_some.mp there, theirs, .inr ⟨_, one, rfl⟩⟩

theorem mem_of_lastMax {α : Type} {key : α → Int} {xs : List α} {a : α} (found : lastMax key xs = some a) : a ∈ xs := by
  have held : ∀ (xs : List α) (best : Option α), (xs.foldl (fun best x =>
      if best.any (fun b => key x < key b) then best else some x) best) = some a → best = some a ∨ a ∈ xs := by
    intro xs
    induction xs with
    | nil => exact fun best found => .inl found
    | cons x rest ih =>
      intro best found
      rcases ih _ found with same | later
      · dsimp only at same
        split at same
        · exact .inl same
        · cases same
          exact .inr mem_cons_self
      · exact .inr (mem_cons_of_mem x later)
  rcases held xs none found with none | inside
  · cases none
  · exact inside

theorem mem_of_linked {anonymous : String} {row : EventRow} {resolution : Resolution} {link : Link}
    (found : identity.linked anonymous row resolution = some link) :
    ∃ links, identity.links.get? anonymous = some links ∧ link ∈ links := by
  cases resolution with
  | eventTime =>
    obtain ⟨links, there, last⟩ := Option.bind_eq_some_iff.mp found
    exact ⟨links, there, mem_of_mem_filter (mem_of_lastMax last)⟩
  | latestKnown =>
    obtain ⟨links, there, last⟩ := Option.bind_eq_some_iff.mp found
    exact ⟨links, there, mem_of_lastMax last⟩

theorem canonical_of_get?_none (unmerged : identity.mergedInto.get? x = none) : identity.canonical x = x := by
  have one : maxAliasDepth = 63 + 1 := rfl
  simp [Identity.canonical, one, follow, unmerged]

theorem collected_of_canonical (same : identity.canonical x = identity.canonical person) :
    Collected identity person x := by
  cases into : identity.mergedInto.get? x with
  | some next => exact .merged into same
  | none =>
    rw [canonical_of_get?_none into] at same
    rw [same]
    exact .canonical

theorem collected_of_who {row : EventRow} {resolution : Resolution}
    (theirs : identity.who row resolution = some (identity.canonical person)) :
    ∃ key ∈ [endUserId, anonymousId], ∃ value, text row key = some value ∧ Collected identity person value := by
  unfold Identity.who at theirs
  split at theirs
  · cases theirs
  · cases known : text row endUserId with
    | some name =>
      simp only [known] at theirs
      exact ⟨endUserId, by simp, name, known, collected_of_canonical (Option.some.inj theirs)⟩
    | none =>
      simp only [known] at theirs
      obtain ⟨anonymous, carried, resolved⟩ := Option.map_eq_some_iff.mp theirs
      refine ⟨anonymousId, by simp, anonymous, carried, ?_⟩
      cases found : identity.linked anonymous row resolution with
      | some link =>
        obtain ⟨links, there, one⟩ := mem_of_linked found
        rw [found] at resolved
        exact .timeline there ⟨link, one, resolved⟩
      | none =>
        rw [found] at resolved
        rw [show anonymous = identity.canonical person from resolved]
        exact .canonical

end

end TallyOwl.Identify
