import TallyOwl.Head.Bounded

/-! A graph folded from batches and bounded to a moment, against one folded from the rows before that moment. What
each part of a graph holds is read off the rows in the order they were taken. -/
namespace TallyOwl.Identify
open Lib List OrderedMap

section
variable {α : Type} {key : α → Int} {xs ys : List α} {a : α}

theorem lastMax_append (x : α) : lastMax key (xs ++ [x]) =
    if (lastMax key xs).any (fun best => key x < key best) then lastMax key xs else some x := by
  rw [lastMax, foldl_append]
  rfl

theorem lastMax_eq_some : lastMax key xs = some a ↔
    (∀ b ∈ xs, key b ≤ key a) ∧ (xs.filter fun x => key x = key a).getLast? = some a := by
  induction xs using List.reverseRecOn generalizing a with
  | nil => simp [lastMax]
  | append_singleton xs x ih =>
    rw [lastMax_append]
    cases best : lastMax key xs with
    | none =>
      have empty : xs = [] := by
        induction xs using List.reverseRecOn with
        | nil => rfl
        | append_singleton xs y _ =>
          rw [lastMax_append] at best
          split_ifs at best with lower
          rw [best] at lower
          cases lower
      subst empty
      by_cases same : key x = key a
      · simp [same]
      · simp only [Option.any_none, Bool.false_eq_true, if_false, Option.some.injEq, nil_append]
        rw [filter_singleton]
        simp only [same, decide_false, cond_false, getLast?_nil, reduceCtorEq, and_false, iff_false]
        rintro rfl
        exact same rfl
    | some b =>
      obtain ⟨top, last⟩ := ih.mp best
      simp only [Option.any_some, decide_eq_true_eq]
      split_ifs with lower
      · rw [best] at ih
        rw [ih]
        constructor
        · rintro ⟨high, found⟩
          have less : key x < key a := lower.trans_le (high b (mem_of_mem_filter (mem_of_getLast? last)))
          refine ⟨?_, ?_⟩
          · intro c inside
            rcases mem_append.mp inside with old | new
            · exact high c old
            · obtain rfl := mem_singleton.mp new
              exact less.le
          · rw [filter_append, filter_singleton]
            simpa [less.ne] using found
        · rintro ⟨high, found⟩
          have above : key b ≤ key a :=
            high b (mem_append_left _ (mem_of_mem_filter (mem_of_getLast? last)))
          have less : key x < key a := lower.trans_le above
          refine ⟨fun c inside => high c (mem_append_left _ inside), ?_⟩
          rw [filter_append, filter_singleton] at found
          simpa [less.ne] using found
      · rw [Option.some.injEq]
        constructor
        · rintro rfl
          refine ⟨?_, ?_⟩
          · intro c inside
            rcases mem_append.mp inside with old | new
            · exact (top c old).trans (not_lt.mp lower)
            · obtain rfl := mem_singleton.mp new
              exact le_refl _
          · rw [filter_append, filter_singleton]
            simp
        · rintro ⟨high, found⟩
          have low : key a ≤ key x := by
            have inside := mem_of_mem_filter (mem_of_getLast? found)
            rcases mem_append.mp inside with old | new
            · exact (top a old).trans (not_lt.mp lower)
            · obtain rfl := mem_singleton.mp new
              exact le_refl _
          have same : key x = key a := le_antisymm (high x (by simp)) low
          rw [filter_append, filter_singleton] at found
          simpa [same] using found

theorem lastMax_congr (same : ∀ k, xs.filter (fun x => key x = k) = ys.filter fun x => key x = k) :
    lastMax key xs = lastMax key ys := by
  have inside (b : α) : b ∈ xs ↔ b ∈ ys := by
    have both := same (key b)
    constructor
    · intro here
      have there : b ∈ xs.filter fun x => key x = key b := by simp [here]
      rw [both] at there
      exact mem_of_mem_filter there
    · intro here
      have there : b ∈ ys.filter fun x => key x = key b := by simp [here]
      rw [← both] at there
      exact mem_of_mem_filter there
  ext a
  rw [lastMax_eq_some, lastMax_eq_some, same]
  simp only [inside]

theorem getLast?_of_sorted (sorted : xs.Pairwise fun a b => key a ≤ key b) : xs.getLast? = lastMax key xs := by
  induction xs using List.reverseRecOn with
  | nil => rfl
  | append_singleton xs x _ =>
    rw [lastMax_append, getLast?_append]
    have top := (pairwise_append.mp sorted).2.2
    rw [if_neg]
    · rfl
    · intro lower
      cases found : lastMax key xs with
      | none => simp [found] at lower
      | some best =>
        rw [found, Option.any_some, decide_eq_true_eq] at lower
        exact absurd (top best (mem_of_lastMax found) x (mem_singleton.mpr rfl)) (not_le.mpr lower)

end

/-! What one row tells. -/

def linkOf (row : EventRow) : Option Link :=
  if row.kind = "identify" then
    match text row endUserId, text row anonymousId with
    | some endUser, some anonymous => some ⟨anonymous, endUser, row.occurredAt, row.eventId⟩
    | _, _ => none
  else none

def mergeOf (row : EventRow) : Option Merge :=
  if row.kind = "alias" then
    match text row "from_id", text row "to_id" with
    | some fromId, some toId => if fromId = toId then none else some ⟨fromId, toId, row.occurredAt, row.eventId⟩
    | _, _ => none
  else none

def joinOf (row : EventRow) : Option (String × Membership) :=
  if row.kind = "group" then
    match text row "group_id", (text row endUserId).or (text row anonymousId) with
    | some groupId, some who => some (who, ⟨groupId, text row "group_kind", row.occurredAt⟩)
    | _, _ => none
  else none

def settingsIn (user key : String) (row : EventRow) : List (PropertyValue × Int) :=
  if (linkOf row).any (·.endUserId = user) ∧ key ∉ [endUserId, anonymousId, "span_id"] then
    (row.properties.filter (·.1 = key)).map fun p => (p.2.1, row.occurredAt)
  else []

section
variable (rows : List EventRow)

/-- The rows that linked a timeline, that put somebody into a group and that set a trait, in the order of the list. -/
def linksOf (anonymous : String) : List Link := (rows.filterMap linkOf).filter (·.anonymousId = anonymous)

def joinsOf (holder : String) : List Membership :=
  ((rows.filterMap joinOf).filter (·.1 = holder)).map Prod.snd

def settingsOf (user key : String) : List (PropertyValue × Int) := rows.flatMap (settingsIn user key)

end

/-- A membership joins those held, unless its group was joined by then. -/
def addJoin (held : List Membership) (m : Membership) : List Membership :=
  if held.any fun h => h.groupId = m.groupId ∧ h.since ≤ m.since then held else held ++ [m]

def Identity.history (identity : Identity) (user key : String) : List (PropertyValue × Int) :=
  ((identity.traits.get? user).getD ∅).bucket key

section
variable (identity : Identity) (row : EventRow)

theorem take_eq : identity.take row = { identity with
    links := (linkOf row).elim identity.links fun link => identity.links.push link.anonymousId link
    merges := identity.merges ++ (mergeOf row).toList
    mergedInto := (mergeOf row).toList.foldl (fun into merge => into.insert merge.fromId merge.toId) identity.mergedInto
    memberships := (joinOf row).elim identity.memberships fun join =>
      identity.memberships.insert join.1 (addJoin (identity.memberships.bucket join.1) join.2)
    traits := (linkOf row).elim identity.traits fun link => (identity.takeTraits link.endUserId row).traits
    folded := identity.folded.insert row.eventId () } := by
  unfold Identity.take linkOf mergeOf joinOf
  by_cases identify : row.kind = "identify"
  · cases user : text row endUserId <;> cases named : text row anonymousId <;>
      simp [identify, user, named, Identity.takeIdentify, Identity.takeTraits, OrderedMap.push, OrderedMap.bucket]
  · by_cases aliased : row.kind = "alias"
    · cases before : text row "from_id" with
      | none => simp [aliased, before, Identity.takeAlias]
      | some fromId =>
        cases behind : text row "to_id" with
        | none => simp [aliased, before, behind, Identity.takeAlias]
        | some toId => by_cases same : fromId = toId <;> simp [aliased, before, behind, same, Identity.takeAlias]
    · by_cases group : row.kind = "group"
      · cases joined : text row "group_id" with
        | none => simp [group, joined, Identity.takeGroup]
        | some groupId =>
          cases person : (text row endUserId).or (text row anonymousId) with
          | none => simp [group, joined, person, Identity.takeGroup]
          | some who =>
            simp only [group, joined, person, Identity.takeGroup, String.reduceEq, reduceIte]
            simp [OrderedMap.bucket, addJoin]
      · simp [identify, aliased, group]

end

/-! What many rows do. -/

section
variable {identity : Identity} {rows : List EventRow}

theorem bucket_push {ν : Type} (m : OrderedMap String (List ν)) (k k' : String) (v : ν) :
    (m.push k v).bucket k' = m.bucket k' ++ if k = k' then [v] else [] := by
  rw [OrderedMap.bucket, OrderedMap.push, get?_insert]
  by_cases same : k' = k
  · simp [same]
  · simp [same, Ne.symm same, OrderedMap.bucket]

theorem links_foldl (anonymous : String) : (rows.foldl Identity.take identity).links.bucket anonymous =
    identity.links.bucket anonymous ++ linksOf rows anonymous := by
  induction rows generalizing identity with
  | nil => simp [linksOf]
  | cons row rest ih =>
    rw [foldl_cons, ih, take_eq]
    cases link : linkOf row with
    | none => simp [linksOf, link]
    | some l =>
      simp only [Option.elim_some, bucket_push, linksOf, filterMap_cons, link, append_assoc]
      by_cases mine : l.anonymousId = anonymous <;> simp [mine]

theorem merges_foldl : (rows.foldl Identity.take identity).merges = identity.merges ++ rows.filterMap mergeOf ∧
    (rows.foldl Identity.take identity).mergedInto = (rows.filterMap mergeOf).foldl
      (fun into merge => into.insert merge.fromId merge.toId) identity.mergedInto := by
  induction rows generalizing identity with
  | nil => simp
  | cons row rest ih =>
    rw [foldl_cons, (@ih (identity.take row)).1, (@ih (identity.take row)).2, take_eq]
    cases merge : mergeOf row <;> simp [merge]

theorem memberships_foldl (holder : String) : (rows.foldl Identity.take identity).memberships.bucket holder =
    (joinsOf rows holder).foldl addJoin (identity.memberships.bucket holder) := by
  induction rows generalizing identity with
  | nil => simp [joinsOf]
  | cons row rest ih =>
    rw [foldl_cons, ih, take_eq]
    cases join : joinOf row with
    | none => simp [joinsOf, join]
    | some j =>
      simp only [Option.elim_some, joinsOf, filterMap_cons, join]
      by_cases mine : j.1 = holder
      · simp [mine, OrderedMap.bucket, get?_insert]
      · simp [mine, Ne.symm mine, OrderedMap.bucket, get?_insert]

theorem folded_foldl (id : Id) : (rows.foldl Identity.take identity).folded.get? id = none ↔
    identity.folded.get? id = none ∧ ∀ row ∈ rows, row.eventId ≠ id := by
  induction rows generalizing identity with
  | nil => simp
  | cons row rest ih =>
    rw [foldl_cons, ih, take_eq, get?_insert]
    by_cases same : id = row.eventId
    · simp [same]
    · simp [same, Ne.symm same]

/-- A list that was sorted by time over and over as its elements came. -/
structure Keeps (held told : List (PropertyValue × Int)) : Prop where
  sorted : held.Pairwise fun a b => a.2 ≤ b.2
  same : ∀ moment, held.filter (fun x => x.2 = moment) = told.filter fun x => x.2 = moment

theorem Keeps.push {held told : List (PropertyValue × Int)} (keeps : Keeps held told) (x : PropertyValue × Int) :
    Keeps ((held ++ [x]).insertionSort fun a b => a.2 ≤ b.2) (told ++ [x]) :=
  ⟨pairwise_sorted _, fun moment => by
    rw [filter_insertionSort, filter_append, filter_append, keeps.same]⟩

theorem history_takeTraits {told : List (PropertyValue × Int)} {user key : String} {row : EventRow} {link : Link}
    (linked : linkOf row = some link) (keeps : Keeps (identity.history user key) told) :
    Keeps ((identity.takeTraits link.endUserId row).history user key) (told ++ settingsIn user key row) := by
  unfold Identity.history at keeps ⊢
  unfold Identity.takeTraits settingsIn
  simp only [linked, Option.any_some, decide_eq_true_eq, get?_insert]
  by_cases mine : user = link.endUserId
  · subst mine
    simp only [if_true, Option.getD_some, true_and]
    generalize (identity.traits.get? link.endUserId).getD ∅ = held at keeps ⊢
    induction row.properties generalizing held told with
    | nil => simpa using keeps
    | cons p rest ih =>
      simp only [foldl_cons]
      by_cases field : p.1 ∈ [endUserId, anonymousId, "span_id"]
      · rw [if_pos field]
        have skipped := @ih _ _ keeps
        by_cases same : p.1 = key
        · simpa [same, same ▸ field] using skipped
        · simpa [same] using skipped
      · rw [if_neg field]
        by_cases same : p.1 = key
        · have pushed := keeps.push (p.2.1, row.occurredAt)
          rw [same] at field ⊢
          have next := @ih _ (held.insert key _) (by
            rw [OrderedMap.bucket, get?_insert, if_pos rfl]
            exact pushed)
          rw [if_pos field] at next ⊢
          rw [filter_cons_of_pos (by simpa using same), map_cons]
          rw [append_assoc] at next
          exact next
        · have next := @ih _ (held.insert p.1 (((held.get? p.1).getD [] ++
            [(p.2.1, row.occurredAt)]).insertionSort fun a b => a.2 ≤ b.2)) (by
            rw [OrderedMap.bucket, get?_insert, if_neg (Ne.symm same)]
            exact keeps)
          simpa [same] using next
  · simpa [mine, Ne.symm mine] using keeps

theorem history_foldl {told : List (PropertyValue × Int)} {user key : String}
    (keeps : Keeps (identity.history user key) told) :
    Keeps ((rows.foldl Identity.take identity).history user key) (told ++ settingsOf rows user key) := by
  induction rows generalizing identity told with
  | nil => simpa [settingsOf] using keeps
  | cons row rest ih =>
    rw [foldl_cons, settingsOf, flatMap_cons, ← append_assoc]
    refine ih ?_
    rw [take_eq]
    cases linked : linkOf row with
    | none => simpa [Identity.history, settingsIn, linked] using keeps
    | some link => exact history_takeTraits linked keeps

end

/-! The rows that batches fold in. -/

def Tells (projectId : Id) (row : EventRow) : Prop :=
  row.projectId = projectId ∧ row.kind ∈ ["identify", "alias", "group"]

instance (projectId : Id) : DecidablePred (Tells projectId) := fun _ => inferInstanceAs (Decidable (_ ∧ _))

def placeOf (row : EventRow) : Int ×ₗ Id := toLex (row.occurredAt, row.eventId)

def inOrder (rows : List EventRow) : List EventRow := rows.insertionSort fun a b => placeOf a ≤ placeOf b

def Identity.fresh (identity : Identity) (rows : List EventRow) : List EventRow :=
  inOrder (rows.filter fun row => Tells identity.projectId row ∧ identity.folded.get? row.eventId = none)

/-- The rows that batches fold into a graph, in the order they are taken. -/
def taken (identity : Identity) : List (List EventRow) → List EventRow
  | [] => []
  | rows :: rest => identity.fresh rows ++ taken (identity.apply rows) rest

def Identity.counting (identity : Identity) (n : Nat) : Identity := { identity with foreignRowsIgnored := n }

section
variable {identity : Identity} {rows : List EventRow} {batches : List (List EventRow)}

theorem foldl_take_counting (n : Nat) : rows.foldl Identity.take (identity.counting n) =
    (rows.foldl Identity.take identity).counting n := by
  induction rows generalizing identity with
  | nil => rfl
  | cons row rest ih =>
    have one : (identity.counting n).take row = (identity.take row).counting n := by
      rw [take_eq, take_eq]
      cases linkOf row <;> rfl
    rw [foldl_cons, foldl_cons, one, ih]

theorem apply_eq (identity : Identity) (rows : List EventRow) : identity.apply rows =
    ((identity.fresh rows).foldl Identity.take identity).counting (identity.foreignRowsIgnored +
      (rows.length - (rows.filter fun row => row.projectId = identity.projectId).length)) := by
  rw [← foldl_take_counting]
  have same : ((rows.filter fun row => row.projectId = identity.projectId).filter fun row =>
      row.kind ∈ ["identify", "alias", "group"] ∧ identity.folded.get? row.eventId = none) =
      rows.filter fun row => Tells identity.projectId row ∧ identity.folded.get? row.eventId = none := by
    rw [filter_filter]
    refine filter_congr fun row _ => ?_
    simp only [Tells, ← Bool.decide_and]
    exact decide_eq_decide.mpr (by tauto)
  rw [Identity.fresh, inOrder, ← same]
  rfl

theorem foldl_apply_eq : ∃ n, batches.foldl Identity.apply identity =
    ((taken identity batches).foldl Identity.take identity).counting n := by
  induction batches generalizing identity with
  | nil => exact ⟨identity.foreignRowsIgnored, rfl⟩
  | cons rows rest ih =>
    obtain ⟨n, folded⟩ := @ih (identity.apply rows)
    refine ⟨n, ?_⟩
    rw [foldl_cons, folded, taken, foldl_append]
    generalize taken (identity.apply rows) rest = later
    rw [apply_eq, foldl_take_counting]
    rfl

theorem mem_fresh {row : EventRow} : row ∈ identity.fresh rows ↔
    row ∈ rows ∧ Tells identity.projectId row ∧ identity.folded.get? row.eventId = none := by
  simp [Identity.fresh, inOrder, mem_insertionSort]

theorem projectId_apply : (identity.apply rows).projectId = identity.projectId := by
  rw [apply_eq]
  exact projectId_foldl _ _

theorem folded_apply (id : Id) : (identity.apply rows).folded.get? id = none ↔
    identity.folded.get? id = none ∧ ∀ row ∈ identity.fresh rows, row.eventId ≠ id := by
  rw [apply_eq]
  exact folded_foldl id

theorem mem_taken {all : List EventRow} (apart : (all.map EventRow.eventId).Nodup) (within : ∀ b ∈ batches, b ⊆ all)
    {row : EventRow} : row ∈ taken identity batches ↔
      (∃ b ∈ batches, row ∈ b) ∧ Tells identity.projectId row ∧ identity.folded.get? row.eventId = none := by
  induction batches generalizing identity with
  | nil => simp [taken]
  | cons rows rest ih =>
    rw [taken, mem_append, mem_fresh, ih fun b inside => within b (mem_cons_of_mem _ inside),
      projectId_apply, folded_apply]
    constructor
    · rintro (⟨inside, tells, new⟩ | ⟨⟨b, later, inside⟩, tells, new, -⟩)
      · exact ⟨⟨rows, mem_cons_self, inside⟩, tells, new⟩
      · exact ⟨⟨b, mem_cons_of_mem _ later, inside⟩, tells, new⟩
    · rintro ⟨⟨b, there, inside⟩, tells, new⟩
      by_cases first : row ∈ rows
      · exact .inl ⟨first, tells, new⟩
      · rcases mem_cons.mp there with rfl | later
        · exact absurd inside first
        · refine .inr ⟨⟨b, later, inside⟩, tells, new, fun other fresh same => first ?_⟩
          have mine := (mem_fresh.mp fresh).1
          rwa [← inj_on_of_nodup_map apart (within rows mem_cons_self mine)
            (within b (mem_cons_of_mem _ later) inside) same]

theorem nodup_taken {all : List EventRow} (apart : (all.map EventRow.eventId).Nodup) (within : ∀ b ∈ batches, b ⊆ all)
    (each : ∀ b ∈ batches, b.Nodup) : (taken identity batches).Nodup := by
  induction batches generalizing identity with
  | nil => exact nodup_nil
  | cons rows rest ih =>
    have behind : ∀ b ∈ rest, b ⊆ all := fun b inside => within b (mem_cons_of_mem _ inside)
    rw [taken]
    refine List.nodup_append.mpr ⟨?_, ih behind fun b inside => each b (mem_cons_of_mem _ inside), ?_⟩
    · exact (perm_insertionSort _ _).nodup_iff.mpr ((each rows mem_cons_self).filter _)
    · rintro row here other there rfl
      have new := ((mem_taken apart behind).mp there).2.2
      exact ((folded_apply _).mp new).2 row here rfl

end

/-! What is left of it before a moment. -/

section
variable {identity : Identity} {rows : List EventRow} {moment : Int}

def before (moment : Int) (rows : List EventRow) : List EventRow := rows.filter (·.occurredAt < moment)

theorem filterMap_before {α : Type} {f : EventRow → Option α} {time : α → Int}
    (timed : ∀ row a, f row = some a → time a = row.occurredAt) :
    (rows.filterMap f).filter (time · < moment) = (before moment rows).filterMap f := by
  unfold before
  induction rows with
  | nil => rfl
  | cons row rest ih =>
    cases told : f row with
    | none =>
      rw [filterMap_cons_none told, ih, filter_cons]
      split_ifs
      · rw [filterMap_cons_none told]
      · rfl
    | some a =>
      rw [filterMap_cons_some told, filter_cons, filter_cons, timed row a told, ih]
      split_ifs
      · rw [filterMap_cons_some told]
      · rfl

theorem moment_linkOf {row : EventRow} {link : Link} (told : linkOf row = some link) : link.moment = row.occurredAt := by
  unfold linkOf at told
  split_ifs at told
  split at told
  · cases told
    rfl
  · cases told

theorem moment_mergeOf {row : EventRow} {merge : Merge} (told : mergeOf row = some merge) :
    merge.moment = row.occurredAt ∧ merge.eventId = row.eventId := by
  unfold mergeOf at told
  split_ifs at told
  split at told
  · split_ifs at told
    cases told
    exact ⟨rfl, rfl⟩
  · cases told

theorem since_joinOf {row : EventRow} {join : String × Membership} (told : joinOf row = some join) :
    join.2.since = row.occurredAt := by
  unfold joinOf at told
  split_ifs at told
  split at told
  · cases told
    rfl
  · cases told

theorem time_settingsIn {user key : String} {row : EventRow} {x : PropertyValue × Int}
    (told : x ∈ settingsIn user key row) : x.2 = row.occurredAt := by
  unfold settingsIn at told
  split_ifs at told
  · obtain ⟨p, -, rfl⟩ := mem_map.mp told
    rfl
  · cases told

theorem linksOf_before (anonymous : String) :
    (linksOf rows anonymous).filter (·.moment < moment) = linksOf (before moment rows) anonymous := by
  rw [linksOf, filter_comm, filterMap_before fun _ _ => moment_linkOf, linksOf]

theorem joinsOf_before (holder : String) :
    (joinsOf rows holder).filter (·.since < moment) = joinsOf (before moment rows) holder := by
  rw [joinsOf, filter_map, filter_comm, joinsOf, ← filterMap_before fun _ _ => since_joinOf]
  rfl

theorem settingsOf_before (user key : String) :
    (settingsOf rows user key).filter (·.2 < moment) = settingsOf (before moment rows) user key := by
  unfold settingsOf before
  induction rows with
  | nil => rfl
  | cons row rest ih =>
    rw [flatMap_cons, filter_append, ih, filter_cons]
    split_ifs with early
    · rw [flatMap_cons, filter_eq_self.mpr fun x told => by rw [time_settingsIn told]; exact early]
    · rw [filter_eq_nil_iff.mpr fun x told => by rw [time_settingsIn told]; exact early, nil_append]

theorem bucket_kept {ν : Type} (m : OrderedMap String (List ν)) (keep : ν → Bool) (keeps : List ν → Bool)
    (some : ∀ xs, keeps xs = false → xs = []) (k : String) :
    ((m.mapValues fun _ held => held.filter keep).filter fun _ kept => keeps kept).bucket k = (m.bucket k).filter keep := by
  unfold OrderedMap.bucket
  rw [get?_filter_mapValues]
  cases m.get? k with
  | none => rfl
  | some held =>
    rw [Option.map_some, Option.filter_some]
    split_ifs with kept
    · rfl
    · exact (some _ (by simpa using kept)).symm

theorem bucket_of_no_entries {ν : Type} {m : OrderedMap String (List ν)} (none : m.entries = []) (k : String) :
    m.bucket k = [] := by
  rw [OrderedMap.bucket, OrderedMap.get?, none]
  rfl

theorem links_boundedTo (anonymous : String) : (identity.boundedTo moment).links.bucket anonymous =
    (identity.links.bucket anonymous).filter (·.moment < moment) :=
  bucket_kept _ _ _ (by simp) anonymous

theorem memberships_boundedTo (holder : String) : (identity.boundedTo moment).memberships.bucket holder =
    (identity.memberships.bucket holder).filter (·.since < moment) :=
  bucket_kept _ _ _ (by simp) holder

theorem history_boundedTo (user key : String) : (identity.boundedTo moment).history user key =
    (identity.history user key).filter (·.2 < moment) := by
  unfold Identity.history Identity.boundedTo
  rw [get?_filter_mapValues]
  cases identity.traits.get? user with
  | none => rfl
  | some held =>
    have inner := bucket_kept held (·.2 < moment) (fun inside => inside ≠ []) (by simp) key
    rw [Option.map_some, Option.filter_some]
    split_ifs with kept
    · exact inner
    · rw [Option.getD_some, ← inner]
      exact (bucket_of_no_entries (by simpa using kept) key).symm

theorem Keeps.before {held told : List (PropertyValue × Int)} (keeps : Keeps held told) :
    Keeps (held.filter (·.2 < moment)) (told.filter (·.2 < moment)) :=
  ⟨keeps.sorted.filter _, fun t => by rw [filter_comm, keeps.same, filter_comm]⟩

theorem foldl_addJoin_before (ms : List Membership) : (ms.foldl addJoin []).filter (·.since < moment) =
    (ms.filter (·.since < moment)).foldl addJoin [] := by
  induction ms using List.reverseRecOn with
  | nil => rfl
  | append_singleton ms m ih =>
    rw [foldl_append, filter_append, foldl_append, ← ih]
    generalize ms.foldl addJoin [] = held
    by_cases early : m.since < moment
    · -- what keeps it out began before it, so before the moment
      have same : (held.any fun h => h.groupId = m.groupId ∧ h.since ≤ m.since) =
          (held.filter (·.since < moment)).any fun h => h.groupId = m.groupId ∧ h.since ≤ m.since := by
        rw [any_filter]
        congr 1
        funext h
        by_cases low : h.since ≤ m.since
        · simp [lt_of_le_of_lt low early]
        · simp [low]
      simp only [foldl_cons, foldl_nil, filter_cons, early, decide_true, if_true, addJoin, ← same]
      split_ifs
      · rfl
      · simp [early]
    · have later : [m].filter (·.since < moment) = [] := by simp [early]
      rw [later, foldl_cons, foldl_nil, foldl_nil, addJoin]
      split_ifs
      · rfl
      · rw [filter_append, later, append_nil]

theorem joined_foldl (joined : ∀ e ∈ identity.memberships.entries, e.2 ≠ []) :
    ∀ e ∈ (rows.foldl Identity.take identity).memberships.entries, e.2 ≠ [] := by
  induction rows generalizing identity with
  | nil => exact joined
  | cons row rest ih =>
    refine ih ?_
    rw [take_eq]
    cases join : joinOf row with
    | none => exact joined
    | some j =>
      intro e inside
      rcases mem_insert.mp inside with rfl | ⟨old, -⟩
      · unfold addJoin
        split_ifs with there
        · intro empty
          simp only at empty
          rw [empty] at there
          cases there
        · simp
      · exact joined e old

end

/-- What an identity graph holds of some rows, taken in their order. -/
structure Reads (projectId : Id) (rows : List EventRow) (identity : Identity) : Prop where
  project : identity.projectId = projectId
  links : ∀ anonymous, identity.links.bucket anonymous = linksOf rows anonymous
  memberships : ∀ holder, identity.memberships.bucket holder = (joinsOf rows holder).foldl addJoin []
  joined : ∀ e ∈ identity.memberships.entries, e.2 ≠ []
  traits : ∀ user key, Keeps (identity.history user key) (settingsOf rows user key)
  mergedInto : identity.mergedInto = ((rows.filterMap mergeOf).insertionSort fun a b =>
    toLex (a.moment, a.eventId) ≤ toLex (b.moment, b.eventId)).foldl
      (fun into merge => into.insert merge.fromId merge.toId) ∅

section
variable {projectId : Id} {rows : List EventRow} {batches : List (List EventRow)} {moment : Int}

theorem placeOf_mergeOf {row : EventRow} {merge : Merge} (told : mergeOf row = some merge) :
    toLex (merge.moment, merge.eventId) = placeOf row := by
  rw [(moment_mergeOf told).1, (moment_mergeOf told).2, placeOf]

theorem pairwise_inOrder (rows : List EventRow) : (inOrder rows).Pairwise fun a b => placeOf a ≤ placeOf b :=
  pairwise_sorted rows

theorem reads_build : Reads projectId (inOrder (rows.filter (Tells projectId))) (.build projectId rows) := by
  have fresh : (Identity.start projectId).fresh rows = inOrder (rows.filter (Tells projectId)) := by
    unfold Identity.fresh
    refine congrArg _ (filter_congr fun row _ => ?_)
    simp [Identity.start, OrderedMap.get?]
  unfold Identity.build
  rw [apply_eq, fresh]
  refine ⟨projectId_foldl _ _, fun anonymous => ?_, fun holder => ?_, joined_foldl (by simp [Identity.start]),
    fun user key => ?_, ?_⟩
  · exact (links_foldl anonymous).trans (by simp [Identity.start])
  · exact memberships_foldl holder
  · have keeps : Keeps ((Identity.start projectId).history user key) [] := ⟨.nil, fun _ => rfl⟩
    exact history_foldl keeps
  · rw [List.Pairwise.insertionSort_eq]
    · exact merges_foldl.2
    · refine pairwise_filterMap.mpr ((pairwise_inOrder _).imp fun le merge told other also => ?_)
      rw [placeOf_mergeOf told, placeOf_mergeOf also]
      exact le

theorem reads_boundedTo : Reads projectId (before moment (taken (.start projectId) batches))
    ((batches.foldl Identity.apply (.start projectId)).boundedTo moment) := by
  obtain ⟨n, folded⟩ := @foldl_apply_eq (.start projectId) batches
  rw [folded]
  generalize taken (.start projectId) batches = rows
  have early : (((rows.foldl Identity.take (.start projectId)).counting n).merges.filter (·.moment < moment)) =
      (before moment rows).filterMap mergeOf := by
    have all : ((rows.foldl Identity.take (.start projectId)).counting n).merges = rows.filterMap mergeOf :=
      merges_foldl.1
    rw [all, filterMap_before fun _ _ told => (moment_mergeOf told).1]
  refine ⟨projectId_foldl _ _, fun anonymous => ?_, fun holder => ?_, fun e inside => ?_, fun user key => ?_, ?_⟩
  · rw [links_boundedTo, ← linksOf_before]
    exact congrArg _ ((links_foldl anonymous).trans (by simp [Identity.start]))
  · rw [memberships_boundedTo, ← joinsOf_before, ← foldl_addJoin_before]
    exact congrArg _ (memberships_foldl holder)
  · simpa using (OrderedMap.mem_filter.mp inside).2
  · rw [history_boundedTo, ← settingsOf_before]
    have keeps : Keeps ((Identity.start projectId).history user key) [] := ⟨.nil, fun _ => rfl⟩
    exact Keeps.before (history_foldl keeps)
  · rw [← early]
    rfl

end
end TallyOwl.Identify
