import TallyOwl.Head.Materialised

/-! When a materialised graph that is bounded to a moment answers like one folded from the rows before it: where rows
that compete were taken in the order of their times. -/
namespace TallyOwl.Identify
open Lib List OrderedMap

/-- The `identify` of one moment that is taken last gives a timeline to the person that the one of the greatest event
id does. -/
def SameLinks (canonical : String → String) (arrived ordered : List EventRow) : Prop :=
  ∀ anonymous moment,
    (((linksOf arrived anonymous).filter (·.moment = moment)).getLast?).map (fun link => canonical link.endUserId) =
      (((linksOf ordered anonymous).filter (·.moment = moment)).getLast?).map fun link => canonical link.endUserId

/-- Among the rows that compete for one answer the one that wins is the same, whether they are taken as they arrived
or in order. A later `identify` of one moment wins, the first row that joined a group, the last setting of a trait. -/
structure InStep (canonical : String → String) (arrived ordered : List EventRow) : Prop where
  links : SameLinks canonical arrived ordered
  joins : ∀ holder group, ((joinsOf arrived holder).filter (·.groupId = group)).head? =
    ((joinsOf ordered holder).filter (·.groupId = group)).head?
  traits : ∀ user key, (lastMax Prod.snd (settingsOf arrived user key)).map Prod.fst =
    (lastMax Prod.snd (settingsOf ordered user key)).map Prod.fst

section
variable {α β : Type} {key : α → Int} {xs ys : List α} {f : α → β}

theorem lastMax_eq_none : lastMax key xs = none ↔ xs = [] := by
  constructor
  · intro none
    induction xs using List.reverseRecOn with
    | nil => rfl
    | append_singleton xs x _ =>
      rw [lastMax_append] at none
      split_ifs at none with lower
      rw [none] at lower
      cases lower
  · rintro rfl
    rfl

theorem map_lastMax (same : ∀ k, ((xs.filter fun x => key x = k).getLast?).map f =
    ((ys.filter fun y => key y = k).getLast?).map f) : (lastMax key xs).map f = (lastMax key ys).map f := by
  have there (xs ys : List α) (same : ∀ k, ((xs.filter fun x => key x = k).getLast?).map f =
      ((ys.filter fun y => key y = k).getLast?).map f) {a : α} (inside : a ∈ xs) : ∃ b ∈ ys, key b = key a := by
    have some : (ys.filter fun y => key y = key a) ≠ [] := by
      intro empty
      have last := same (key a)
      rw [empty, getLast?_nil, Option.map_none, Option.map_eq_none_iff, getLast?_eq_none_iff,
        filter_eq_nil_iff] at last
      exact last a inside (decide_eq_true rfl)
    obtain ⟨b, member⟩ := exists_mem_of_ne_nil _ some
    exact ⟨b, (List.mem_filter.mp member).1, by simpa using (List.mem_filter.mp member).2⟩
  cases best : lastMax key xs with
  | none =>
    obtain rfl := lastMax_eq_none.mp best
    have empty : ys = [] := eq_nil_iff_forall_not_mem.mpr fun b inside => by
      obtain ⟨a, none, -⟩ := there ys [] (fun k => (same k).symm) inside
      cases none
    rw [empty]
    rfl
  | some a =>
    obtain ⟨top, last⟩ := lastMax_eq_some.mp best
    have also := same (key a)
    rw [last, Option.map_some] at also
    obtain ⟨b, ends, equal⟩ := Option.map_eq_some_iff.mp also.symm
    have level : key b = key a := by simpa using (List.mem_filter.mp (mem_of_getLast? ends)).2
    have found : lastMax key ys = some b := by
      refine lastMax_eq_some.mpr ⟨fun c inside => ?_, by rw [level]; exact ends⟩
      obtain ⟨d, member, is⟩ := there ys xs (fun k => (same k).symm) inside
      rw [level, ← is]
      exact top d member
    rw [found, Option.map_some, Option.map_some, equal]

end

section
variable {projectId : Id} {arrived ordered : List EventRow} {first second : Identity}

/-- Two graphs with the same merges, of the same rows in two orders. -/
structure Alike (projectId : Id) (arrived ordered : List EventRow) (first second : Identity) : Prop where
  reads : Reads projectId arrived first
  readsAlso : Reads projectId ordered second
  rows : arrived.Perm ordered
  mergedInto : first.mergedInto = second.mergedInto
  sorted : ordered.Pairwise fun a b => placeOf a ≤ placeOf b

theorem Alike.canonical (alike : Alike projectId arrived ordered first second) : first.canonical = second.canonical := by
  unfold Identity.canonical
  rw [alike.mergedInto]

theorem linked_eq (identity : Identity) (anonymous : String) (row : EventRow) :
    identity.linked anonymous row .eventTime =
        lastMax Link.moment ((identity.links.bucket anonymous).filter fun link => link.moment ≤ row.occurredAt) ∧
      identity.linked anonymous row .latestKnown = lastMax Link.moment (identity.links.bucket anonymous) := by
  unfold Identity.linked OrderedMap.bucket
  cases identity.links.get? anonymous <;> exact ⟨rfl, rfl⟩

theorem who_eq (identity : Identity) (row : EventRow) (resolution : Resolution) : identity.who row resolution =
    if row.projectId ≠ identity.projectId then none
    else (text row endUserId).elim ((text row anonymousId).map fun anonymous =>
      ((identity.linked anonymous row resolution).map fun link => identity.canonical link.endUserId).getD anonymous)
        fun known => some (identity.canonical known) := by
  unfold Identity.who
  split_ifs
  · rfl
  · cases text row endUserId with
    | some known => rfl
    | none =>
      refine congrArg (Option.map · _) (funext fun anonymous => ?_)
      cases identity.linked anonymous row resolution <;> rfl

theorem Alike.linked (alike : Alike projectId arrived ordered first second)
    (same : SameLinks second.canonical arrived ordered) (anonymous : String) (row : EventRow) (resolution : Resolution) :
    (first.linked anonymous row resolution).map (fun link => second.canonical link.endUserId) =
      (second.linked anonymous row resolution).map fun link => second.canonical link.endUserId := by
  cases resolution with
  | eventTime =>
    rw [(linked_eq _ _ _).1, (linked_eq _ _ _).1, alike.reads.links, alike.readsAlso.links]
    refine map_lastMax fun moment => ?_
    -- at one moment the bound keeps all or nothing
    rw [filter_filter, filter_filter]
    by_cases low : moment ≤ row.occurredAt
    · have keep (links : List Link) : (links.filter fun link => decide (link.moment = moment) &&
          decide (link.moment ≤ row.occurredAt)) = links.filter fun link => link.moment = moment := by
        refine filter_congr fun link _ => ?_
        by_cases equal : link.moment = moment <;> simp [equal, low]
      rw [keep, keep]
      exact same anonymous moment
    · have drop (links : List Link) : (links.filter fun link => decide (link.moment = moment) &&
          decide (link.moment ≤ row.occurredAt)) = [] := by
        refine filter_eq_nil_iff.mpr fun link _ => ?_
        by_cases equal : link.moment = moment <;> simp [equal, low]
      rw [drop, drop]
  | latestKnown =>
    rw [(linked_eq _ _ _).2, (linked_eq _ _ _).2, alike.reads.links, alike.readsAlso.links]
    exact map_lastMax (same anonymous)

theorem Alike.who (alike : Alike projectId arrived ordered first second)
    (same : SameLinks second.canonical arrived ordered) (row : EventRow) (resolution : Resolution) :
    first.who row resolution = second.who row resolution := by
  rw [who_eq, who_eq, alike.reads.project, alike.readsAlso.project]
  simp only [alike.canonical, alike.linked same]

def timelineRow (projectId : Id) (anonymous : String) (moment : Int) : EventRow :=
  { EventRow.new 0 "event" "opened" moment with
    projectId := projectId
    properties := [(anonymousId, .text anonymous, "client")] }

theorem who_timelineRow {identity : Identity} {rows : List EventRow} (reads : Reads projectId rows identity)
    {anonymous : String} (named : anonymous ≠ "") {moment : Int} {link : Link}
    (last : ((linksOf rows anonymous).filter (·.moment = moment)).getLast? = some link) :
    identity.who (timelineRow projectId anonymous moment) .eventTime = some (identity.canonical link.endUserId) := by
  have unknown : text (timelineRow projectId anonymous moment) endUserId = none := rfl
  have carried : text (timelineRow projectId anonymous moment) anonymousId = some anonymous := by
    simp [text, EventRow.property, timelineRow, named]
  have level : link.moment = moment := by simpa using (List.mem_filter.mp (mem_of_getLast? last)).2
  have latest : lastMax Link.moment ((linksOf rows anonymous).filter (·.moment ≤ moment)) = some link := by
    refine lastMax_eq_some.mpr ⟨fun b low => ?_, ?_⟩
    · rw [level]
      simpa using (List.mem_filter.mp low).2
    · rw [level, filter_filter, ← last]
      refine congrArg _ (filter_congr fun link _ => ?_)
      by_cases equal : link.moment = moment <;> simp [equal]
  have found : identity.linked anonymous (timelineRow projectId anonymous moment) .eventTime = some link := by
    rw [(linked_eq _ _ _).1, reads.links]
    exact latest
  rw [who_eq, unknown, carried, Option.elim_none, Option.map_some, found, reads.project]
  simp [timelineRow]

theorem named_of_linksOf {rows : List EventRow} {anonymous : String} {link : Link}
    (inside : link ∈ linksOf rows anonymous) : anonymous ≠ "" := by
  obtain ⟨there, same⟩ := List.mem_filter.mp inside
  obtain ⟨row, -, told⟩ := mem_filterMap.mp there
  obtain rfl : link.anonymousId = anonymous := by simpa using same
  unfold linkOf at told
  split_ifs at told
  split at told
  · rename_i named
    cases told
    unfold text at named
    split at named
    · split_ifs at named with empty
      cases named
      exact empty
    · cases named
  · cases told

theorem Alike.who_iff (alike : Alike projectId arrived ordered first second) :
    (∀ row resolution, first.who row resolution = second.who row resolution) ↔
      SameLinks second.canonical arrived ordered := by
  refine ⟨fun same anonymous moment => ?_, fun same => alike.who same⟩
  have perm : ((linksOf arrived anonymous).filter (·.moment = moment)).Perm
      ((linksOf ordered anonymous).filter (·.moment = moment)) :=
    ((alike.rows.filterMap _).filter _).filter _
  cases last : ((linksOf arrived anonymous).filter (·.moment = moment)).getLast? with
  | none =>
    rw [getLast?_eq_none_iff] at last
    rw [last] at perm
    rw [perm.nil_eq.symm]
    rfl
  | some link =>
    have inside := mem_of_getLast? last
    have named := named_of_linksOf (List.mem_filter.mp inside).1
    cases also : ((linksOf ordered anonymous).filter (·.moment = moment)).getLast? with
    | none =>
      rw [getLast?_eq_none_iff] at also
      rw [also] at perm
      rw [perm.eq_nil] at inside
      cases inside
    | some other =>
      -- a row of the timeline at that moment is asked about
      have asked := same (timelineRow projectId anonymous moment) .eventTime
      rw [who_timelineRow alike.reads named last, who_timelineRow alike.readsAlso named also, alike.canonical] at asked
      exact asked

end

section
variable {projectId : Id} {arrived ordered : List EventRow} {first second : Identity}

theorem filter_foldl_addJoin {ms : List Membership} (least : ∀ group earliest,
      (ms.filter (·.groupId = group)).head? = some earliest → ∀ m ∈ ms, m.groupId = group → earliest.since ≤ m.since)
    (group : String) : (ms.foldl addJoin []).filter (·.groupId = group) =
      ((ms.filter (·.groupId = group)).head?).toList := by
  induction ms using List.reverseRecOn generalizing group with
  | nil => rfl
  | append_singleton ms m ih =>
    have still {g : String} {earliest : Membership} (head : (ms.filter (·.groupId = g)).head? = some earliest) :
        ((ms ++ [m]).filter (·.groupId = g)).head? = some earliest := by
      rw [filter_append, head?_append, head]
      rfl
    have held := ih fun g earliest head n inside same =>
      least g earliest (still head) n (mem_append_left _ inside) same
    rw [foldl_append, foldl_cons, foldl_nil]
    cases head : (ms.filter (·.groupId = m.groupId)).head? with
    | some earliest =>
      have there := held m.groupId
      rw [head] at there
      have inside : earliest ∈ (ms.foldl addJoin []).filter (·.groupId = m.groupId) := by simp [there]
      obtain ⟨kept, same⟩ := List.mem_filter.mp inside
      have early := least m.groupId earliest (still head) m (by simp) rfl
      have out : ((ms.foldl addJoin []).any fun h => h.groupId = m.groupId ∧ h.since ≤ m.since) = true :=
        any_eq_true.mpr ⟨earliest, kept, decide_eq_true ⟨by simpa using same, early⟩⟩
      rw [addJoin, if_pos out, held, filter_append, head?_append]
      by_cases mine : m.groupId = group
      · rw [← mine, head]
        rfl
      · simp [mine]
    | none =>
      have there := held m.groupId
      rw [head, Option.toList_none, filter_eq_nil_iff] at there
      have out : ((ms.foldl addJoin []).any fun h => h.groupId = m.groupId ∧ h.since ≤ m.since) ≠ true := by
        intro found
        obtain ⟨h, kept, both⟩ := any_eq_true.mp found
        exact there h kept (decide_eq_true (of_decide_eq_true both).1)
      rw [addJoin, if_neg out, filter_append, held, filter_append, head?_append]
      by_cases mine : m.groupId = group
      · rw [← mine, head]
        simp
      · simp [mine]

theorem earliest_of_sorted (sorted : ordered.Pairwise fun a b => placeOf a ≤ placeOf b) (holder group : String)
    (earliest : Membership) (head : ((joinsOf ordered holder).filter (·.groupId = group)).head? = some earliest)
    (m : Membership) (inside : m ∈ joinsOf ordered holder) (same : m.groupId = group) : earliest.since ≤ m.since := by
  have times : (joinsOf ordered holder).Pairwise fun a b => a.since ≤ b.since := by
    refine pairwise_map.mpr (List.Pairwise.filter _ (pairwise_filterMap.mpr ?_))
    refine sorted.imp fun {row other} le a told b also => ?_
    rw [since_joinOf told, since_joinOf also]
    rcases Prod.Lex.toLex_le_toLex.mp le with less | ⟨level, -⟩
    · exact less.le
    · exact level.le
  have part := times.filter (·.groupId = group)
  have there : m ∈ (joinsOf ordered holder).filter (·.groupId = group) := List.mem_filter.mpr ⟨inside, decide_eq_true same⟩
  cases is : (joinsOf ordered holder).filter (·.groupId = group) with
  | nil => simp [is] at there
  | cons a rest =>
    rw [is] at head there part
    cases head
    rcases mem_cons.mp there with rfl | later
    · exact le_refl _
    · exact (pairwise_cons.mp part).1 m later

theorem Alike.bucket (alike : Alike projectId arrived ordered first second)
    (joins : ∀ holder group, ((joinsOf arrived holder).filter (·.groupId = group)).head? =
      ((joinsOf ordered holder).filter (·.groupId = group)).head?) (holder group : String) :
    (first.memberships.bucket holder).filter (·.groupId = group) =
      (second.memberships.bucket holder).filter (·.groupId = group) := by
  have perm : (joinsOf arrived holder).Perm (joinsOf ordered holder) :=
    ((alike.rows.filterMap _).filter _).map _
  have early := earliest_of_sorted alike.sorted holder
  rw [alike.reads.memberships, alike.readsAlso.memberships, filter_foldl_addJoin early, filter_foldl_addJoin, joins]
  intro g earliest head m inside same
  rw [joins] at head
  exact early g earliest head m (perm.mem_iff.mp inside) same

theorem resolvesTo_eq (identity : Identity) (holder who : String) : identity.resolvesTo holder who =
    ((lastMax Link.moment (identity.links.bucket holder)).map fun link => identity.canonical link.endUserId).any
      fun canonical => canonical = who := by
  unfold Identity.resolvesTo OrderedMap.bucket
  cases identity.links.get? holder with
  | none => rfl
  | some links =>
    rw [Option.bind_some, Option.getD_some]
    cases lastMax Link.moment links <;> rfl

def countsFor (identity : Identity) (who : String) (moment : Int) (holder : String) (held : List Membership) :
    List Membership :=
  if holder ≠ who ∧ identity.resolvesTo holder who then held.filter (·.since ≤ moment) else []

theorem groupsOf_eq (identity : Identity) (who : String) (moment : Int) : identity.groupsOf who moment =
    (((identity.memberships.bucket who).filter (·.since ≤ moment) ++
      identity.memberships.entries.flatMap fun e => countsFor identity who moment e.1 e.2).insertionSort
        fun a b => toLex (a.since, a.groupId) ≤ toLex (b.since, b.groupId)).destutter
          fun kept next => kept.groupId ≠ next.groupId := by
  unfold Identity.groupsOf
  simp only
  congr 2
  generalize (identity.memberships.bucket who).filter (·.since ≤ moment) = own
  induction identity.memberships.entries generalizing own with
  | nil => simp
  | cons e rest ih =>
    rw [foldl_cons, ih, flatMap_cons, ← append_assoc, countsFor]
    by_cases self : e.1 = who
    · simp [self]
    · by_cases theirs : identity.resolvesTo e.1 who <;> simp [self, theirs]

theorem Alike.resolvesTo (alike : Alike projectId arrived ordered first second)
    (same : SameLinks second.canonical arrived ordered) (holder who : String) :
    first.resolvesTo holder who = second.resolvesTo holder who := by
  rw [resolvesTo_eq, resolvesTo_eq, alike.canonical, alike.reads.links, alike.readsAlso.links]
  exact congrArg (Option.any _) (map_lastMax (same holder))

theorem Alike.groupsOf (alike : Alike projectId arrived ordered first second)
    (inStep : InStep second.canonical arrived ordered) (who : String) (moment : Int) :
    first.groupsOf who moment = second.groupsOf who moment := by
  have held := alike.bucket inStep.joins
  -- a group and a time are those of one group
  have part {xs ys : List Membership} (same : ∀ group, xs.filter (·.groupId = group) = ys.filter (·.groupId = group))
      (place : Int ×ₗ String) :
      (xs.filter (·.since ≤ moment)).filter (fun m => toLex (m.since, m.groupId) = place) =
        (ys.filter (·.since ≤ moment)).filter fun m => toLex (m.since, m.groupId) = place := by
    have narrow (xs : List Membership) :
        (xs.filter (·.since ≤ moment)).filter (fun m => toLex (m.since, m.groupId) = place) =
          ((xs.filter (·.groupId = (ofLex place).2)).filter (·.since ≤ moment)).filter
            fun m => toLex (m.since, m.groupId) = place := by
      rw [filter_filter, filter_filter, filter_filter]
      refine filter_congr fun m _ => ?_
      by_cases is : toLex (m.since, m.groupId) = place
      · subst is
        simp
      · simp [is]
    rw [narrow xs, narrow ys, same]
  rw [groupsOf_eq, groupsOf_eq]
  refine congrArg _ (insertionSort_congr fun place => ?_)
  rw [filter_append, filter_append, part (held who) place, filter_flatMap, filter_flatMap]
  have counted (identity : Identity) (holder : String) : ((identity.memberships.get? holder).map fun held =>
      (countsFor identity who moment holder held).filter fun m => toLex (m.since, m.groupId) = place).getD [] =
        (countsFor identity who moment holder (identity.memberships.bucket holder)).filter
          fun m => toLex (m.since, m.groupId) = place := by
    unfold OrderedMap.bucket
    cases identity.memberships.get? holder with
    | none => simp [countsFor]
    | some held => rfl
  refine congrArg _ (flatMap_entries_congr
    (f := fun holder held => (countsFor first who moment holder held).filter fun m => toLex (m.since, m.groupId) = place)
    (g := fun holder held => (countsFor second who moment holder held).filter fun m => toLex (m.since, m.groupId) = place)
    fun holder => ?_)
  refine (counted first holder).trans (Eq.trans ?_ (counted second holder).symm)
  unfold countsFor
  rw [alike.resolvesTo inStep.links]
  split_ifs
  · exact part (held holder) place
  · rfl

end
section
variable {projectId : Id} {arrived ordered : List EventRow} {first second : Identity}

def latestOf (identity : Identity) (canonical key holder : String)
    (held : OrderedMap String (List (PropertyValue × Int))) : List (PropertyValue × Int) :=
  if identity.canonical holder = canonical then ((held.get? key).bind latestTrait).toList else []

/-- The values that the holders of one person's traits held last, in the order of the holders. -/
def latests (identity : Identity) (canonical key : String) : List (PropertyValue × Int) :=
  identity.traits.entries.flatMap fun holder => latestOf identity canonical key holder.1 holder.2

def pick (all : List (PropertyValue × Int)) (value : Option PropertyValue) (latest : PropertyValue × Int) :
    Option PropertyValue :=
  if value ≠ none ∧ (all.all fun held => held.2 ≤ latest.2) = false then value else some latest.1

theorem isNewer_eq (identity : Identity) (canonical key : String) (moment : Int) :
    identity.isNewer canonical key moment = (latests identity canonical key).all fun held => held.2 ≤ moment := by
  unfold Identity.isNewer latests
  refine congrArg (fun all => List.all all _) ?_
  induction identity.traits.entries with
  | nil => rfl
  | cons e rest ih =>
    rw [flatMap_cons, ← ih, filter_cons, latestOf]
    by_cases mine : identity.canonical e.1 = canonical
    · simp only [mine, decide_true, if_true]
      cases found : e.2.get? key with
      | none => simp [found]
      | some history => cases last : latestTrait history <;> simp [found, last]
    · simp [mine]

/-- What one holder's history of one trait does to the traits of a person. -/
def setTrait (identity : Identity) (canonical : String) (out : OrderedMap String PropertyValue) (key : String)
    (history : List (PropertyValue × Int)) : OrderedMap String PropertyValue :=
  (latestTrait history).elim out fun latest =>
    if out.get? key ≠ none ∧ identity.isNewer canonical key latest.2 = false then out else out.insert key latest.1

theorem get?_setTrait (identity : Identity) (canonical : String) (out : OrderedMap String PropertyValue)
    (name key : String) (history : List (PropertyValue × Int)) :
    (setTrait identity canonical out name history).get? key =
      (if name = key then (latestTrait history).toList else []).foldl (pick (latests identity canonical key))
        (out.get? key) := by
  unfold setTrait
  cases latestTrait history with
  | none => split_ifs <;> rfl
  | some latest =>
    rw [Option.elim_some]
    by_cases mine : name = key
    · subst mine
      rw [if_pos rfl, Option.toList_some, foldl_cons, foldl_nil, pick, isNewer_eq]
      split_ifs
      · rfl
      · rw [get?_insert, if_pos rfl]
    · rw [if_neg mine, foldl_nil]
      split_ifs
      · rfl
      · rw [get?_insert, if_neg (Ne.symm mine)]

theorem traitsOf_eq (identity : Identity) (who : String) : identity.traitsOf who =
    identity.traits.entries.foldl (fun out holder => if identity.canonical holder.1 = identity.canonical who then
        holder.2.entries.foldl (fun out e => setTrait identity (identity.canonical who) out e.1 e.2) out
      else out) ∅ := by
  unfold Identity.traitsOf
  refine congrArg (fun step => List.foldl step ∅ _) (funext fun out => funext fun holder => ?_)
  by_cases mine : identity.canonical holder.1 = identity.canonical who
  · rw [if_neg (not_not.mpr mine), if_pos mine]
    refine congrArg (fun step => List.foldl step out _) (funext fun out => funext fun e => ?_)
    unfold setTrait
    cases latestTrait e.2 <;> rfl
  · rw [if_pos mine, if_neg mine]

theorem get?_traitsOf (identity : Identity) (who key : String) : (identity.traitsOf who).get? key =
    (latests identity (identity.canonical who) key).foldl (pick (latests identity (identity.canonical who) key)) none := by
  rw [traitsOf_eq]
  generalize identity.canonical who = canonical
  -- the values are picked one after another, whatever was picked before
  have folded (holders : List (String × OrderedMap String (List (PropertyValue × Int))))
      (out : OrderedMap String PropertyValue) : (holders.foldl (fun out holder =>
        if identity.canonical holder.1 = canonical then
          holder.2.entries.foldl (fun out e => setTrait identity canonical out e.1 e.2) out
        else out) out).get? key = (holders.flatMap fun holder =>
          latestOf identity canonical key holder.1 holder.2).foldl (pick (latests identity canonical key))
            (out.get? key) := by
    have inner (es : List (String × List (PropertyValue × Int))) (out : OrderedMap String PropertyValue) :
        (es.foldl (fun out e => setTrait identity canonical out e.1 e.2) out).get? key =
          (es.flatMap fun e => if e.1 = key then (latestTrait e.2).toList else []).foldl
            (pick (latests identity canonical key)) (out.get? key) := by
      induction es generalizing out with
      | nil => rfl
      | cons e rest ih => rw [foldl_cons, ih, get?_setTrait, flatMap_cons, foldl_append]
    induction holders generalizing out with
    | nil => rfl
    | cons holder rest ih =>
      rw [foldl_cons, ih, flatMap_cons, foldl_append, latestOf]
      split_ifs
      · rw [inner, flatMap_entries_at holder.2 key fun history => (latestTrait history).toList]
        cases holder.2.get? key <;> rfl
      · rfl
  exact folded _ ∅

theorem Alike.latest (alike : Alike projectId arrived ordered first second)
    (traits : ∀ user key, (lastMax Prod.snd (settingsOf arrived user key)).map Prod.fst =
      (lastMax Prod.snd (settingsOf ordered user key)).map Prod.fst) (user key : String) :
    latestTrait (first.history user key) = latestTrait (second.history user key) := by
  have perm : (settingsOf arrived user key).Perm (settingsOf ordered user key) := alike.rows.flatMap_right _
  have kept := alike.reads.traits user key
  have also := alike.readsAlso.traits user key
  unfold latestTrait
  rw [getLast?_of_sorted kept.sorted, getLast?_of_sorted also.sorted, lastMax_congr kept.same, lastMax_congr also.same]
  have values := traits user key
  cases one : lastMax Prod.snd (settingsOf arrived user key) with
  | none =>
    rw [one, Option.map_none] at values
    exact (Option.map_eq_none_iff.mp values.symm).symm
  | some a =>
    rw [one, Option.map_some] at values
    obtain ⟨b, two, equal⟩ := Option.map_eq_some_iff.mp values.symm
    -- both were set at the latest of the times
    have low := (lastMax_eq_some.mp two).1 a (perm.mem_iff.mp (mem_of_lastMax one))
    have high := (lastMax_eq_some.mp one).1 b (perm.mem_iff.mpr (mem_of_lastMax two))
    rw [two]
    exact congrArg some (Prod.ext equal.symm (le_antisymm low high))

theorem Alike.traitsOf (alike : Alike projectId arrived ordered first second)
    (traits : ∀ user key, (lastMax Prod.snd (settingsOf arrived user key)).map Prod.fst =
      (lastMax Prod.snd (settingsOf ordered user key)).map Prod.fst) (who : String) :
    first.traitsOf who = second.traitsOf who := by
  have same (canonical key : String) : latests first canonical key = latests second canonical key := by
    refine flatMap_entries_congr (f := latestOf first canonical key) (g := latestOf second canonical key)
      fun holder => ?_
    have held (identity : Identity) : ((identity.traits.get? holder).map (latestOf identity canonical key holder)).getD [] =
        if identity.canonical holder = canonical then (latestTrait (identity.history holder key)).toList else [] := by
      unfold Identity.history OrderedMap.bucket latestOf
      cases identity.traits.get? holder with
      | none => split_ifs <;> rfl
      | some held =>
        rw [Option.map_some, Option.getD_some, Option.getD_some]
        cases held.get? key <;> rfl
    rw [held, held, alike.canonical, alike.latest traits]
  refine ext_of_get? fun key => ?_
  rw [get?_traitsOf, get?_traitsOf, alike.canonical, same]

end
section
variable {projectId : Id} {rows : List EventRow} {batches : List (List EventRow)} {moment : Int}

/-- The person that the aliases of some rows make of a known identifier. -/
def personOf (rows : List EventRow) (known : String) : String :=
  follow ((rows.filterMap mergeOf).foldl (fun into merge => into.insert merge.fromId merge.toId) ∅) maxAliasDepth [] known

/-- The rows of a project in the order they arrive: batch after batch, and each batch in the order of its times. -/
def arrivals (projectId : Id) : (seen : List Id) → List (List EventRow) → List EventRow
  | _, [] => []
  | seen, rows :: rest =>
      inOrder (rows.filter fun row => Tells projectId row ∧ row.eventId ∉ seen) ++
        arrivals projectId (seen ++ (rows.filter (Tells projectId)).map EventRow.eventId) rest

theorem taken_eq_arrivals {identity : Identity} {seen : List Id}
    (folded : ∀ id, identity.folded.get? id = none ↔ id ∉ seen) :
    taken identity batches = arrivals identity.projectId seen batches := by
  induction batches generalizing identity seen with
  | nil => rfl
  | cons rows rest ih =>
    have fresh : identity.fresh rows =
        inOrder (rows.filter fun row => Tells identity.projectId row ∧ row.eventId ∉ seen) := by
      unfold Identity.fresh
      simp only [folded]
    have after (id : Id) : (identity.apply rows).folded.get? id = none ↔
        id ∉ seen ++ (rows.filter (Tells identity.projectId)).map EventRow.eventId := by
      rw [folded_apply, folded, mem_append, not_or]
      refine and_congr_right fun new => ⟨fun apart told => ?_, fun apart row inside same => apart ?_⟩
      · obtain ⟨row, inside, rfl⟩ := mem_map.mp told
        obtain ⟨there, tells⟩ := List.mem_filter.mp inside
        exact apart row (mem_fresh.mpr ⟨there, of_decide_eq_true tells, (folded _).mpr new⟩) rfl
      · obtain ⟨there, tells, -⟩ := mem_fresh.mp inside
        exact mem_map.mpr ⟨row, List.mem_filter.mpr ⟨there, decide_eq_true tells⟩, same⟩
    rw [taken, arrivals, ih after, projectId_apply, fresh]

theorem alike_boundedTo (apart : (rows.map EventRow.eventId).Nodup) (within : ∀ b ∈ batches, b ⊆ rows)
    (each : ∀ b ∈ batches, b.Nodup) (covers : ∀ row ∈ rows, ∃ b ∈ batches, row ∈ b) :
    Alike projectId (before moment (arrivals projectId [] batches))
      (inOrder ((before moment rows).filter (Tells projectId)))
      ((batches.foldl Identity.apply (.start projectId)).boundedTo moment) (.build projectId (before moment rows)) := by
  have new (id : Id) : (Identity.start projectId).folded.get? id = none := rfl
  have arrived : taken (.start projectId) batches = arrivals projectId [] batches :=
    taken_eq_arrivals fun id => by simp [new]
  have reads : Reads projectId (before moment (arrivals projectId [] batches))
      ((batches.foldl Identity.apply (.start projectId)).boundedTo moment) := by
    rw [← arrived]
    exact reads_boundedTo
  have readsAlso : Reads projectId (inOrder ((before moment rows).filter (Tells projectId)))
      (.build projectId (before moment rows)) := reads_build
  have perm : (before moment (arrivals projectId [] batches)).Perm
      (inOrder ((before moment rows).filter (Tells projectId))) := by
    refine List.Perm.trans ?_ (perm_insertionSort _ _).symm
    refine (perm_ext_iff_of_nodup ?_ ?_).mpr fun row => ?_
    · rw [← arrived]
      exact (nodup_taken apart within each).filter _
    · exact (apart.of_map.filter _).filter _
    · simp only [before, List.mem_filter, decide_eq_true_eq, ← arrived, mem_taken apart within, new, and_true]
      constructor
      · rintro ⟨⟨⟨b, there, inside⟩, tells⟩, early⟩
        exact ⟨⟨within b there inside, early⟩, tells⟩
      · rintro ⟨⟨inside, early⟩, tells⟩
        exact ⟨⟨covers row inside, tells⟩, early⟩
  refine ⟨reads, readsAlso, perm, ?_, pairwise_inOrder _⟩
  rw [reads.mergedInto, readsAlso.mergedInto]
  refine congrArg _ (insertionSort_perm (fun merge : Merge => toLex (merge.moment, merge.eventId))
    (perm.filterMap _) ?_)
  -- each merge is of a row of its own
  have ids : ((before moment (arrivals projectId [] batches)).map EventRow.eventId).Nodup := by
    refine List.Nodup.map_on (fun one first two second same => ?_) ?_
    · have inside (row : EventRow) (there : row ∈ before moment (arrivals projectId [] batches)) : row ∈ rows := by
        have known := perm.mem_iff.mp there
        rw [inOrder, mem_insertionSort] at known
        exact (List.mem_filter.mp (List.mem_filter.mp known).1).1
      exact inj_on_of_nodup_map apart (inside one first) (inside two second) same
    · rw [← arrived]
      exact (nodup_taken apart within each).filter _
  refine (pairwise_map.mpr (pairwise_filterMap.mpr ?_))
  refine (pairwise_map.mp ids).imp fun {row other} differ merge told second also same => differ ?_
  rw [placeOf_mergeOf told, placeOf_mergeOf also] at same
  exact congrArg (fun place => (ofLex place).2) same

/-- A materialised graph that is bounded to a moment and one folded from the rows before it say the same of each row
exactly where the links are in step, and answer every question the same where the arrivals are. -/
theorem bounded_graph_answers (projectId : Id) (rows : List EventRow) (batches : List (List EventRow)) (moment : Int)
    (apart : (rows.map EventRow.eventId).Nodup) (within : ∀ b ∈ batches, b ⊆ rows) (each : ∀ b ∈ batches, b.Nodup)
    (covers : ∀ row ∈ rows, ∃ b ∈ batches, row ∈ b) :
    ((∀ row resolution, ((batches.foldl Identity.apply (.start projectId)).boundedTo moment).who row resolution =
        (Identity.build projectId (before moment rows)).who row resolution) ↔
      SameLinks (personOf (inOrder ((before moment rows).filter (Tells projectId))))
        (before moment (arrivals projectId [] batches)) (inOrder ((before moment rows).filter (Tells projectId)))) ∧
    (InStep (personOf (inOrder ((before moment rows).filter (Tells projectId))))
        (before moment (arrivals projectId [] batches)) (inOrder ((before moment rows).filter (Tells projectId))) →
      (∀ row resolution, ((batches.foldl Identity.apply (.start projectId)).boundedTo moment).who row resolution =
        (Identity.build projectId (before moment rows)).who row resolution) ∧
      (∀ who t, ((batches.foldl Identity.apply (.start projectId)).boundedTo moment).groupsOf who t =
        (Identity.build projectId (before moment rows)).groupsOf who t) ∧
      ∀ who, ((batches.foldl Identity.apply (.start projectId)).boundedTo moment).traitsOf who =
        (Identity.build projectId (before moment rows)).traitsOf who) := by
  have alike := @alike_boundedTo projectId rows batches moment apart within each covers
  have person : personOf (inOrder ((before moment rows).filter (Tells projectId))) =
      (Identity.build projectId (before moment rows)).canonical := by
    funext known
    unfold personOf Identity.canonical
    rw [alike.readsAlso.mergedInto, List.Pairwise.insertionSort_eq]
    refine List.pairwise_filterMap.mpr ((pairwise_inOrder _).imp fun le merge told other also => ?_)
    rw [placeOf_mergeOf told, placeOf_mergeOf also]
    exact le
  rw [person]
  exact ⟨alike.who_iff, fun inStep => ⟨alike.who inStep.links, alike.groupsOf inStep, alike.traitsOf inStep.traits⟩⟩

end

def identified (id : Id) (anonymous person : String) (moment : Int) : EventRow :=
  { EventRow.new id "identify" "identified" moment with
    properties := [(anonymousId, .text anonymous, "client"), (endUserId, .text person, "client")] }

def merged (id : Id) (fromId toId : String) (moment : Int) : EventRow :=
  { EventRow.new id "alias" "merged" moment with
    properties := [("from_id", .text fromId, "client"), ("to_id", .text toId, "client")] }

def joined (id : Id) (person group : String) (moment : Int) : EventRow :=
  { EventRow.new id "group" "joined" moment with
    properties := [(endUserId, .text person, "client"), ("group_id", .text group, "client")] }

/-- A merge that arrives late, behind a row that is folded a second time. -/
theorem bounded_graph_answers_late_merge :
    (∀ row resolution, (([[identified 1 "t" "a" 5, joined 3 "a" "g" 7], [joined 3 "a" "g" 7, merged 2 "a" "b" 6]].foldl
        Identity.apply (.start 0)).boundedTo 10).who row resolution =
      (Identity.build 0 (before 10 [identified 1 "t" "a" 5, merged 2 "a" "b" 6, joined 3 "a" "g" 7])).who row resolution) ∧
    ∀ who t, (([[identified 1 "t" "a" 5, joined 3 "a" "g" 7], [joined 3 "a" "g" 7, merged 2 "a" "b" 6]].foldl
        Identity.apply (.start 0)).boundedTo 10).groupsOf who t =
      (Identity.build 0 (before 10 [identified 1 "t" "a" 5, merged 2 "a" "b" 6, joined 3 "a" "g" 7])).groupsOf who t := by
  have answers := bounded_graph_answers 0 [identified 1 "t" "a" 5, merged 2 "a" "b" 6, joined 3 "a" "g" 7]
    [[identified 1 "t" "a" 5, joined 3 "a" "g" 7], [joined 3 "a" "g" 7, merged 2 "a" "b" 6]] 10 (by decide)
    (by decide) (by decide) (by decide)
  have arrived : before 10 (arrivals 0 [] [[identified 1 "t" "a" 5, joined 3 "a" "g" 7],
      [joined 3 "a" "g" 7, merged 2 "a" "b" 6]]) =
        [identified 1 "t" "a" 5, joined 3 "a" "g" 7, merged 2 "a" "b" 6] := by decide
  have ordered : inOrder ((before 10 [identified 1 "t" "a" 5, merged 2 "a" "b" 6, joined 3 "a" "g" 7]).filter (Tells 0)) =
      [identified 1 "t" "a" 5, merged 2 "a" "b" 6, joined 3 "a" "g" 7] := by decide
  rw [arrived, ordered] at answers
  obtain ⟨who, groups, -⟩ := answers.2 ⟨fun _ _ => rfl, fun _ _ => rfl, fun _ _ => rfl⟩
  exact ⟨who, groups⟩

/-- A group that was joined twice is held twice where the later time came first. -/
theorem groups_differ_out_of_step : ∃ (rows : List EventRow) (batches : List (List EventRow)),
    (rows.map EventRow.eventId).Nodup ∧ (∀ b ∈ batches, b ⊆ rows) ∧ (∀ b ∈ batches, b.Nodup) ∧
    (∀ row ∈ rows, ∃ b ∈ batches, row ∈ b) ∧ ((batches.foldl Identity.apply (.start 0)).boundedTo 20).groupsOf "u" 20 ≠
      (Identity.build 0 (before 20 rows)).groupsOf "u" 20 :=
  ⟨[joined 1 "u" "a" 5, joined 2 "u" "b" 7, joined 3 "u" "a" 10],
    [[joined 3 "u" "a" 10], [joined 2 "u" "b" 7, joined 1 "u" "a" 5]],
    by decide, by decide, by decide, by decide, by decide⟩
end TallyOwl.Identify
