import TallyOwl.Cluster.Replica
import TallyOwl.Store.Segmented.Frame

/-! Whether a replica that copied segments holds each committed row once. A listing holds
every row at or below the position it names, so an install leaves no gap; and no row goes
in twice as long as the entries that are applied unchecked past `copied_through` are not
among the rows that copies brought. -/
namespace TallyOwl.Cluster
open Lib List OrderedMap
open Segmented (projectOf withProjects stamp mem_withProjects)

/-! The store. -/

section
variable {t : Tablet} {segment : Segment} {rows : List EventRow}

theorem idsOf_stamp (sourceId batchId : Id) (now : Int) : idsOf (stamp sourceId batchId now rows) = idsOf rows := by
  simp [idsOf, stamp]

theorem idsOf_append {others : List EventRow} : idsOf (rows ++ others) = idsOf rows ++ idsOf others :=
  map_append

def Tablet.ids (t : Tablet) : List Id := idsOf t.held

theorem ids_perm {u : Tablet} (same : t.held.Perm u.held) : t.ids.Perm u.ids := same.map _

theorem held_extend : (t.extend rows).held = t.held ++ rows := by
  simp [Tablet.held, Tablet.extend]

theorem held_sealNow (fresh : Nat) : (t.sealNow fresh).held.Perm t.held := by
  unfold Tablet.sealNow
  split
  · rfl
  · set projects := (withProjects ∅ t.openRows).entries.map Prod.fst
    have covers : ∀ row ∈ t.openRows, projectOf row ∈ projects := fun row inside =>
      mem_map.mpr ⟨_, mem_withProjects (.inl inside), rfl⟩
    have parts : (projects.zipIdx.map fun planned => (⟨fresh + planned.2,
        t.openRows.filter fun row => projectOf row = planned.1,
        (t.openFrom, t.nextPosition - 1)⟩ : Segment)).flatMap Segment.rows =
          projects.flatMap fun project => t.openRows.filter fun row => projectOf row = project := by
      rw [flatMap_map]
      conv_rhs => rw [← zipIdx_map_fst 0 projects, flatMap_map]
    simp only [Tablet.held, flatMap_append, append_nil]
    rw [parts]
    exact (perm_flatMap_filter (nodup_keys _) covers).append_left _

theorem receipts_sealNow (fresh : Nat) : (t.sealNow fresh).receipts = t.receipts := by
  unfold Tablet.sealNow
  split <;> rfl

theorem segments_sealNow (fresh : Nat) : ∀ g ∈ t.segments, g ∈ (t.sealNow fresh).segments := by
  intro g inside
  unfold Tablet.sealNow
  split
  · exact inside
  · exact mem_append_left _ inside

theorem openRows_sealNow (fresh : Nat) : (t.sealNow fresh).openRows = [] := by
  unfold Tablet.sealNow
  split
  · assumption
  · rfl

theorem lookupEvent_eq_none {id : Id} : t.lookupEvent id = none ↔ id ∉ t.ids := by
  simp only [Tablet.lookupEvent, Tablet.ids, idsOf, Tablet.held, find?_eq_none, mem_map,
    mem_append, decide_eq_true_eq, not_exists, not_and]
  constructor
  · intro none row inside
    exact none row inside.symm
  · intro none row inside
    exact none row inside.symm

theorem held_installSegment (absent : segment ∉ t.segments) :
    (t.installSegment segment).held.Perm (t.held ++ segment.rows) := by
  simp only [Tablet.installSegment, if_neg absent, Tablet.held, flatMap_append, flatMap_cons,
    flatMap_nil, append_nil, append_assoc]
  exact List.Perm.append_left _ perm_append_comm

/-- What an adopted segment brings, where the store holds none of it or looks each row
up. -/
structure Brings (t u : Tablet) (segment : Segment) : Prop where
  nodup : t.ids.Nodup → (idsOf segment.rows).Nodup → u.ids.Nodup
  all : ∀ id, id ∈ u.ids ↔ id ∈ t.ids ∨ id ∈ idsOf segment.rows
  receipts : u.receipts = t.receipts

theorem brings_installSegment (fresh : ∀ id ∈ idsOf segment.rows, id ∉ t.ids) :
    Brings t (t.installSegment segment) segment := by
  by_cases listed : segment ∈ t.segments
  · have same : t.installSegment segment = t := if_pos listed
    have held : ∀ id ∈ idsOf segment.rows, id ∈ t.ids := by
      intro id inside
      obtain ⟨row, there, rfl⟩ := mem_map.mp inside
      exact mem_map_of_mem (mem_append_left _ (mem_flatMap.mpr ⟨segment, listed, there⟩))
    rw [same]
    exact ⟨fun nodup _ => nodup, fun id => ⟨.inl, fun either => either.elim (fun old => old) (held id)⟩, rfl⟩
  · have perm : (t.installSegment segment).ids.Perm (t.ids ++ idsOf segment.rows) := by
      have joined := (held_installSegment listed).map EventRow.eventId
      rwa [map_append] at joined
    refine ⟨fun nodup alone => ?_, fun id => ?_, ?_⟩
    · exact perm.nodup_iff.mpr (nodup_append'.mpr ⟨nodup, alone, fun id old new => fresh id new old⟩)
    · rw [perm.mem_iff, mem_append]
    · simp [Tablet.installSegment, listed]

theorem brings_reconcileSegment {fresh : Nat}
    (clear : t.overlaps segment = true ∨ ∀ id ∈ idsOf segment.rows, id ∉ t.ids) :
    Brings t (t.reconcileSegment fresh segment) segment := by
  unfold Tablet.reconcileSegment
  split
  · set keep := segment.rows.filter fun row => t.lookupEvent row.eventId = none
    have kept : ∀ id, id ∈ idsOf keep ↔ id ∈ idsOf segment.rows ∧ id ∉ t.ids := by
      intro id
      simp only [idsOf, mem_map, keep, List.mem_filter, decide_eq_true_eq, lookupEvent_eq_none]
      constructor
      · rintro ⟨row, ⟨inside, absent⟩, rfl⟩
        exact ⟨⟨row, inside, rfl⟩, absent⟩
      · rintro ⟨⟨row, inside, rfl⟩, absent⟩
        exact ⟨row, ⟨inside, absent⟩, rfl⟩
    have either : ∀ id, id ∈ t.ids ∨ id ∈ idsOf keep ↔ id ∈ t.ids ∨ id ∈ idsOf segment.rows := by
      intro id
      rw [kept]
      tauto
    show Brings t (if keep = [] then t else t.installSegment ⟨fresh, keep, segment.logRange⟩) segment
    split
    · rename_i empty
      refine ⟨fun nodup _ => nodup, fun id => ?_, rfl⟩
      rw [← either, empty]
      simp [idsOf]
    · have brings := @brings_installSegment t ⟨fresh, keep, segment.logRange⟩ fun id inside =>
        ((kept id).mp inside).2
      refine ⟨fun nodup alone => brings.nodup nodup ?_, fun id => ?_, brings.receipts⟩
      · exact alone.sublist (filter_sublist.map _)
      · rw [brings.all, either]
  · rename_i apart
    exact brings_installSegment (clear.resolve_left apart)

end

/-! The log, and what a source makes of it. -/

section
variable (log : List Entry)

def idsThrough (position : Nat) : List Id := (log.take position).flatMap fun e => idsOf e.rows

/-- The events of a log are distinct, and so are its batches. -/
structure Distinct : Prop where
  events : (log.flatMap fun e => idsOf e.rows).Nodup
  batches : (log.map Entry.key).Nodup

/-- A source holds what it applied. -/
structure Feeds (source : Source) : Prop where
  short : source.applied ≤ log.length
  ids : source.store.ids.Perm (idsThrough log source.applied)
  receipts : source.store.receipts = (log.take source.applied).map Entry.key

/-- Every event at or below a position is in one of these segments. -/
def Covers (position : Nat) (segments : List Segment) : Prop :=
  ∀ id ∈ idsThrough log position, ∃ g ∈ segments, id ∈ idsOf g.rows

end

section
variable {log : List Entry} {source : Source}

theorem idsThrough_succ {n : Nat} {entry : Entry} (found : log[n]? = some entry) :
    idsThrough log (n + 1) = idsThrough log n ++ idsOf entry.rows := by
  rw [idsThrough, take_add_one, found]
  simp [idsThrough]

theorem mem_idsThrough {n : Nat} {id : Id} : id ∈ idsThrough log n ↔
    ∃ i e, i < n ∧ log[i]? = some e ∧ id ∈ idsOf e.rows := by
  rw [idsThrough, mem_flatMap]
  constructor
  · rintro ⟨e, inside, there⟩
    obtain ⟨i, found⟩ := mem_iff_getElem?.mp inside
    rw [getElem?_take] at found
    split at found
    · exact ⟨i, e, ‹_›, found, there⟩
    · cases found
  · rintro ⟨i, e, below, found, there⟩
    refine ⟨e, mem_iff_getElem?.mpr ⟨i, ?_⟩, there⟩
    rw [getElem?_take, if_pos below]
    exact found

theorem idsThrough_mono {m n : Nat} (less : m ≤ n) : ∀ id ∈ idsThrough log m, id ∈ idsThrough log n := by
  intro id inside
  obtain ⟨i, e, below, found, there⟩ := mem_idsThrough.mp inside
  exact mem_idsThrough.mpr ⟨i, e, by omega, found, there⟩

theorem Feeds.nodup (feeds : Feeds log source) (distinct : Distinct log) : source.store.ids.Nodup := by
  have all := distinct.events
  rw [← take_append_drop source.applied log, flatMap_append] at all
  exact feeds.ids.nodup_iff.mpr (List.nodup_append.mp all).1

theorem Feeds.apply {next : Source} {now : Int} (feeds : Feeds log source) (distinct : Distinct log)
    (ran : source.apply log now = some next) : Feeds log next ∧ source.applied ≤ next.applied ∧
      next.store.segments = source.store.segments := by
  obtain ⟨entry, found, same⟩ := Option.bind_eq_some_iff.mp ran
  cases same
  have more : (log.take (source.applied + 1)).map Entry.key =
      source.store.receipts ++ [entry.key] := by
    rw [take_add_one, found, feeds.receipts]
    simp
  have fresh : entry.key ∉ source.store.receipts := by
    have apart : ((log.take (source.applied + 1)).map Entry.key).Nodup :=
      distinct.batches.sublist ((take_sublist _ _).map _)
    rw [more] at apart
    exact fun inside => (List.nodup_append.mp apart).2.2 _ inside _ (by simp) rfl
  have committed : source.store.commit entry.key (stamp entry.sourceId entry.batchId now entry.rows) =
      (source.store.extend (stamp entry.sourceId entry.batchId now entry.rows)).receive entry.key :=
    if_neg fresh
  refine ⟨⟨?_, ?_, ?_⟩, Nat.le_succ _, ?_⟩
  · exact (List.getElem?_eq_some_iff.mp found).1
  · rw [committed, idsThrough_succ found]
    show (idsOf (source.store.extend _).held).Perm _
    rw [held_extend, idsOf_append, idsOf_stamp]
    exact feeds.ids.append_right _
  · rw [committed, more]
    rfl
  · rw [committed]
    rfl

theorem Feeds.sealed (feeds : Feeds log source) (fresh : Nat) :
    Feeds log { source with store := source.store.sealNow fresh } := by
  refine ⟨feeds.short, (ids_perm (held_sealNow fresh)).trans feeds.ids, ?_⟩
  rw [← feeds.receipts]
  exact receipts_sealNow fresh

theorem Feeds.covers (feeds : Feeds log source) (fresh : Nat) {position : Nat}
    (reached : position ≤ source.applied) : Covers log position (source.store.sealNow fresh).segments := by
  intro id inside
  have held := ((feeds.sealed fresh).ids.mem_iff).mpr (idsThrough_mono reached id inside)
  simp only [Tablet.ids, idsOf, Tablet.held, openRows_sealNow, append_nil] at held
  obtain ⟨row, there, rfl⟩ := mem_map.mp held
  obtain ⟨g, listed, mine⟩ := mem_flatMap.mp there
  exact ⟨g, listed, mem_map_of_mem mine⟩

theorem Distinct.entry_eq (distinct : Distinct log) {i j : Nat} {e f : Entry} {id : Id}
    (first : log[i]? = some e) (second : log[j]? = some f) (inFirst : id ∈ idsOf e.rows)
    (inSecond : id ∈ idsOf f.rows) : i = j :=
  eq_of_nodup_flatMap distinct.events first second inFirst inSecond

end

/-! The target. -/

section
variable (log : List Entry)

def Standing (sources : Nat → Source) (store : Tablet) (applied : Nat) : Phase → Prop
  | .idle | .catching _ => True
  | .committing index entry frame =>
      index = applied + 1 ∧ log[applied]? = some entry ∧ (store.ids ++ idsOf frame).Nodup ∧
        (∀ id ∈ idsOf frame, id ∈ idsOf entry.rows) ∧
        ∀ id ∈ idsOf entry.rows, id ∈ store.ids ∨ id ∈ idsOf frame
  | .asked _ peer position => position ≤ (sources peer).applied
  | .settled _ peer position => Covers log position (sources peer).store.segments
  | .listed index position segments =>
      index ≤ position ∧ Covers log position segments ∧ (idsOf (segments.flatMap Segment.rows)).Nodup
  | .copying index position reconciling left =>
      index ≤ position ∧ (idsOf (left.flatMap Segment.rows)).Nodup ∧
        (∀ id ∈ idsThrough log position, id ∈ store.ids ∨ ∃ g ∈ left, id ∈ idsOf g.rows) ∧
        (reconciling = false → ∀ g ∈ left, ∀ id ∈ idsOf g.rows, id ∉ store.ids)

/-- The target holds every event it answers for, once; a row of an entry that it has no
receipt of came in a copy, or is one that applying the entry again looks up. -/
structure Sound (s : System) : Prop where
  sources : ∀ peer, Feeds log (s.sources peer)
  once : s.store.ids.Nodup
  applied : ∀ id ∈ idsThrough log s.marks.appliedIndex, id ∈ s.store.ids
  saved : ∀ id ∈ idsThrough log s.saved.appliedIndex, id ∈ s.store.ids
  receipts : ∀ e ∈ log, e.key ∈ s.store.receipts → ∀ id ∈ idsOf e.rows, id ∈ s.store.ids
  origin : ∀ i e, log[i]? = some e → ∀ id ∈ idsOf e.rows, id ∈ s.store.ids →
    e.key ∈ s.store.receipts ∨ id ∈ s.copied ∨ i < s.saved.copiedThrough
  through : s.saved.copiedThrough ≤ s.marks.copiedThrough
  standing : Standing log s.sources s.store s.marks.appliedIndex s.phase

/-- The segment that a target which holds segments takes in next. -/
def Phase.arriving : Phase → Option Segment
  | .copying _ _ true (segment :: _) => some segment
  | _ => none

/-- The entry whose rows are in the append log without a receipt. -/
def Phase.unreceipted : Phase → Option Nat
  | .committing index _ _ => some index
  | _ => none

/-- The runs that do not reach a defect: an entry that is applied unchecked is in no
segment that was copied, a segment that is taken whole brings no row that is held, and the
process does not die between the log frame and the receipt of an entry past the saved
`copied_through`. -/
def Orderly (s : System) : Event → Prop
  | .apply _ => ∀ entry ∈ log[s.marks.appliedIndex]?,
      s.marks.appliedIndex + 1 ≤ s.marks.copiedThrough ∨ entry.key ∈ s.store.receipts ∨
        ∀ row ∈ entry.rows, row.eventId ∉ s.copied
  | .copy => ∀ segment ∈ s.phase.arriving,
      s.store.overlaps segment = true ∨ ∀ row ∈ segment.rows, row.eventId ∉ s.store.ids
  | .crash => ∀ index ∈ s.phase.unreceipted, index ≤ s.saved.copiedThrough
  | _ => True

instance (s : System) (e : Event) : Decidable (Orderly log s e) :=
  match e with
  | .apply _ => inferInstanceAs (Decidable (∀ entry ∈ log[s.marks.appliedIndex]?, _))
  | .copy => inferInstanceAs (Decidable (∀ segment ∈ s.phase.arriving, _))
  | .crash => inferInstanceAs (Decidable (∀ index ∈ s.phase.unreceipted, _))
  | .sourceApply _ _ | .sourceSeal _ | .targetSeal | .install _ | .ask _ | .peerSeal | .list | .begin
  | .fail | .giveUp | .installed | .receipt | .save => inferInstanceAs (Decidable True)

end

section
variable {log : List Entry} {s u : System}

theorem sound_start : Sound log .start := by
  refine ⟨fun peer => ⟨Nat.zero_le _, by simp [Tablet.ids, idsOf, Tablet.held, idsThrough, System.start,
    Tablet.empty], rfl⟩, nodup_nil, ?_, ?_, ?_, ?_, le_rfl, trivial⟩
  · simp [System.start, idsThrough]
  · simp [System.start, idsThrough]
  · simp [System.start, Tablet.empty]
  · simp [System.start, Tablet.ids, idsOf, Tablet.held, Tablet.empty]

theorem Sound.goes (sound : Sound log s) {phase : Phase}
    (standing : Standing log s.sources s.store s.marks.appliedIndex phase) : Sound log { s with phase } :=
  ⟨sound.sources, sound.once, sound.applied, sound.saved, sound.receipts, sound.origin, sound.through,
    standing⟩

variable {fresh : Nat}

theorem Sound.moved (sound : Sound log s) {store : Tablet}
    (ids : store.ids.Perm s.store.ids) (receipts : store.receipts = s.store.receipts) :
    Sound log { s with store, fresh } := by
  have same : ∀ id, id ∈ store.ids ↔ id ∈ s.store.ids := fun id => ids.mem_iff
  refine ⟨sound.sources, ids.nodup_iff.mpr sound.once, ?_, ?_, ?_, ?_, sound.through, ?_⟩
  · exact fun id inside => (same id).mpr (sound.applied id inside)
  · exact fun id inside => (same id).mpr (sound.saved id inside)
  · intro e inside stored id there
    rw [receipts] at stored
    exact (same id).mpr (sound.receipts e inside stored id there)
  · intro i e found id there held
    rw [receipts]
    exact sound.origin i e found id there ((same id).mp held)
  · have standing := sound.standing
    cases phase : s.phase with
    | idle => trivial
    | catching index => trivial
    | asked index peer position =>
      rw [phase] at standing
      exact standing
    | settled index peer position =>
      rw [phase] at standing
      exact standing
    | listed index position segments =>
      rw [phase] at standing
      exact standing
    | committing index entry frame =>
      simp only [phase, Standing, same] at standing ⊢
      exact ⟨standing.1, standing.2.1, (ids.append_right _).nodup_iff.mpr standing.2.2.1,
        standing.2.2.2⟩
    | copying index position reconciling left =>
      simp only [phase, Standing, same] at standing ⊢
      exact standing

theorem Sound.sealTarget (sound : Sound log s) : Sound log s.sealTarget :=
  sound.moved (ids_perm (held_sealNow s.fresh)) (receipts_sealNow s.fresh)

theorem Sound.setSource (sound : Sound log s) {peer : Nat} {source : Source}
    (feeds : Feeds log source) (further : (s.sources peer).applied ≤ source.applied)
    (listed : ∀ g ∈ (s.sources peer).store.segments, g ∈ source.store.segments) :
    Sound log { s.setSource peer source with fresh } := by
  refine ⟨fun other => ?_, sound.once, sound.applied, sound.saved, sound.receipts, sound.origin,
    sound.through, ?_⟩
  · by_cases same : other = peer
    · subst same
      simpa [System.setSource] using feeds
    · simpa [System.setSource, same] using sound.sources other
  · have standing := sound.standing
    show Standing log (Function.update s.sources peer source) s.store s.marks.appliedIndex s.phase
    cases phase : s.phase with
    | asked index other position =>
      simp only [phase, Standing] at standing ⊢
      by_cases same : other = peer
      · subst same
        simpa using standing.trans further
      · simpa [same] using standing
    | settled index other position =>
      simp only [phase, Standing] at standing ⊢
      by_cases same : other = peer
      · subst same
        intro id inside
        obtain ⟨g, there, mine⟩ := standing id inside
        exact ⟨g, by simpa using listed g there, mine⟩
      · simpa [same] using standing
    | _ =>
      rw [phase] at standing
      exact standing

theorem Sound.sealSource (sound : Sound log s) (peer : Nat) : Sound log (s.sealSource peer) :=
  sound.setSource ((sound.sources peer).sealed s.fresh) le_rfl (segments_sealNow s.fresh)

theorem Sound.grown (sound : Sound log s) {store : Tablet} {marks saved : TabletMarks} {phase : Phase}
    {copied : List Id} (once : store.ids.Nodup) (more : ∀ id ∈ s.store.ids, id ∈ store.ids)
    (applied : ∀ id ∈ idsThrough log marks.appliedIndex, id ∈ store.ids)
    (durable : ∀ id ∈ idsThrough log saved.appliedIndex, id ∈ store.ids) (receipts : ∀ e ∈ log, e.key ∈ store.receipts →
      e.key ∈ s.store.receipts ∨ ∀ id ∈ idsOf e.rows, id ∈ store.ids)
    (origin : ∀ i e, log[i]? = some e → ∀ id ∈ idsOf e.rows, id ∈ store.ids →
      e.key ∈ store.receipts ∨ id ∈ copied ∨ i < saved.copiedThrough)
    (through : saved.copiedThrough ≤ marks.copiedThrough)
    (standing : Standing log s.sources store marks.appliedIndex phase) :
    Sound log ⟨s.sources, store, marks, saved, phase, fresh, copied⟩ := by
  refine ⟨sound.sources, once, applied, durable, fun e inside stored id there => ?_, origin, through,
    standing⟩
  rcases receipts e inside stored with before | now
  · exact more id (sound.receipts e inside before id there)
  · exact now id there

variable {index position : Nat}

theorem Sound.adopt (sound : Sound log s) {reconciling : Bool} {segment : Segment}
    {left : List Segment} (copying : s.phase = .copying index position reconciling (segment :: left))
    (orderly : reconciling = true → s.store.overlaps segment = true ∨ ∀ row ∈ segment.rows, row.eventId ∉ s.store.ids) :
    Sound log { s.adopt reconciling segment with phase := .copying index position reconciling left } := by
  have standing := sound.standing
  rw [copying] at standing
  obtain ⟨reached, alone, covered, apart⟩ := standing
  rw [flatMap_cons, idsOf_append] at alone
  obtain ⟨mine, others, different⟩ := List.nodup_append.mp alone
  have brings : Brings s.store (s.adopt reconciling segment).store segment := by
    cases reconciling with
    | true => exact brings_reconcileSegment ((orderly rfl).imp_right forall_mem_map.mpr)
    | false => exact brings_installSegment (apart rfl segment mem_cons_self)
  have more : ∀ id ∈ s.store.ids, id ∈ (s.adopt reconciling segment).store.ids := fun id held =>
    (brings.all id).mpr (.inl held)
  refine sound.grown (brings.nodup sound.once mine) more (fun id inside => more id (sound.applied id inside))
    (fun id inside => more id (sound.saved id inside)) (fun e _ stored => .inl (brings.receipts ▸ stored))
    (fun i e found id inside held => ?_) sound.through ⟨reached, others, fun id inside => ?_, fun plain g there id held => ?_⟩
  · rw [brings.receipts]
    rcases (brings.all id).mp held with old | new
    · rcases sound.origin i e found id inside old with receipt | copied | low
      · exact .inl receipt
      · exact .inr (.inl (mem_append_left _ copied))
      · exact .inr (.inr low)
    · exact .inr (.inl (mem_append_right _ new))
  · rcases covered id inside with held | ⟨g, there, has⟩
    · exact .inl (more id held)
    · rcases mem_cons.mp there with rfl | later
      · exact .inl ((brings.all id).mpr (.inr has))
      · exact .inr ⟨g, later, has⟩
  · rw [brings.all id]
    rintro (old | new)
    · exact apart plain g (mem_cons_of_mem _ there) id held old
    · obtain ⟨row, inside, rfl⟩ := mem_map.mp held
      refine different _ new _ (mem_map_of_mem (mem_flatMap.mpr ⟨g, there, inside⟩)) rfl

theorem notAlreadyCopied_none {marks : TabletMarks} {t : Tablet} {index : Nat} {rows : List EventRow}
    (copied : notAlreadyCopied marks t index rows = none) : ∀ id ∈ idsOf rows, id ∈ t.ids := by
  intro id inside
  obtain ⟨row, there, rfl⟩ := mem_map.mp inside
  by_contra absent
  unfold notAlreadyCopied at copied
  split at copied
  · cases copied
  · have missing : row ∈ rows.filter fun row => t.lookupEvent row.eventId = none :=
      List.mem_filter.mpr ⟨there, by simpa using lookupEvent_eq_none.mpr absent⟩
    dsimp only at copied
    split at copied
    · rename_i empty
      rw [empty] at missing
      cases missing
    · cases copied

theorem notAlreadyCopied_some {marks : TabletMarks} {t : Tablet} {index : Nat} {rows kept : List EventRow}
    (copied : notAlreadyCopied marks t index rows = some kept) :
    (idsOf kept).Sublist (idsOf rows) ∧ (∀ id ∈ idsOf rows, id ∈ t.ids ∨ id ∈ idsOf kept) ∧
      (index ≤ marks.copiedThrough → ∀ id ∈ idsOf kept, id ∉ t.ids) := by
  unfold notAlreadyCopied at copied
  split at copied
  · rename_i past
    cases copied
    exact ⟨List.Sublist.refl _, fun id inside => .inr inside, fun low => absurd low (by omega)⟩
  · dsimp only at copied
    split at copied
    · cases copied
    · cases copied
      refine ⟨filter_sublist.map _, fun id inside => ?_, fun _ id inside => ?_⟩
      · obtain ⟨row, there, rfl⟩ := mem_map.mp inside
        by_cases held : row.eventId ∈ t.ids
        · exact .inl held
        · refine .inr (mem_map_of_mem (List.mem_filter.mpr ⟨there, ?_⟩))
          simpa using lookupEvent_eq_none.mpr held
      · obtain ⟨row, there, rfl⟩ := mem_map.mp inside
        exact lookupEvent_eq_none.mp (by simpa using (List.mem_filter.mp there).2)

theorem Sound.applyNext (sound : Sound log s) (distinct : Distinct log) {now : Int}
    (idle : s.phase = .idle) (orderly : Orderly log s (.apply now))
    (ran : s.applyNext log now = some u) : Sound log u := by
  obtain ⟨entry, found, rest⟩ := Option.bind_eq_some_iff.mp ran
  have finishes : (∀ id ∈ idsOf entry.rows, id ∈ s.store.ids) →
      Sound log { s with marks := { s.marks with appliedIndex := s.marks.appliedIndex + 1 } } := by
    intro held
    refine sound.grown sound.once (fun _ inside => inside) (fun id inside => ?_) sound.saved
      (fun e _ stored => .inl stored) sound.origin sound.through (by rw [idle]; trivial)
    rw [idsThrough_succ found] at inside
    exact (mem_append.mp inside).elim (sound.applied id) (held id)
  have mem : entry ∈ log := mem_of_getElem? found
  have alone : (idsOf entry.rows).Nodup := (nodup_flatMap.mp distinct.events).1 entry mem
  cases copied : notAlreadyCopied s.marks s.store (s.marks.appliedIndex + 1) entry.rows with
  | none =>
    simp only [copied] at rest
    cases rest
    exact finishes (notAlreadyCopied_none copied)
  | some rows =>
    obtain ⟨part, covers, checked⟩ := notAlreadyCopied_some copied
    simp only [copied] at rest
    split at rest
    · rename_i stored
      cases rest
      exact finishes (sound.receipts entry mem stored)
    · rename_i unknown
      cases rest
      refine sound.goes ⟨rfl, found, ?_, ?_, ?_⟩
      · rw [idsOf_stamp]
        refine nodup_append'.mpr ⟨sound.once, alone.sublist part, fun id held new => ?_⟩
        by_cases low : s.marks.appliedIndex + 1 ≤ s.marks.copiedThrough
        · exact checked low id new held
        · have none := ((orderly entry found).resolve_left low).resolve_left unknown
          have inside : id ∈ idsOf entry.rows := part.subset new
          rcases sound.origin _ entry found id inside held with receipt | brought | below
          · exact unknown receipt
          · obtain ⟨row, there, rfl⟩ := mem_map.mp inside
            exact none row there brought
          · have := sound.through
            omega
      · rw [idsOf_stamp]
        exact fun id inside => part.subset inside
      · rw [idsOf_stamp]
        exact covers

variable {frame : List EventRow}

theorem nodup_extend (nodup : (s.store.ids ++ idsOf frame).Nodup) : (s.store.extend frame).ids.Nodup := by
  rw [Tablet.ids, held_extend, idsOf_append]
  exact nodup

theorem mem_extend {id : Id} : id ∈ (s.store.extend frame).ids ↔ id ∈ s.store.ids ∨ id ∈ idsOf frame := by
  rw [Tablet.ids, held_extend, idsOf_append, mem_append]
  rfl

variable (sound : Sound log s)
include sound

theorem Sound.receipt (distinct : Distinct log) {index : Nat} {entry : Entry}
    (committing : s.phase = .committing index entry frame) :
    Sound log { s with
      phase := .idle
      store := (s.store.extend frame).receive entry.key
      marks := { s.marks with appliedIndex := index } } := by
  have standing := sound.standing
  rw [committing] at standing
  obtain ⟨rfl, found, nodup, part, covers⟩ := standing
  have ids : ((s.store.extend frame).receive entry.key).ids = (s.store.extend frame).ids := rfl
  have more : ∀ id ∈ s.store.ids, id ∈ (s.store.extend frame).ids := fun id held =>
    mem_extend.mpr (.inl held)
  have all : ∀ id ∈ idsOf entry.rows, id ∈ (s.store.extend frame).ids := fun id inside =>
    mem_extend.mpr (covers id inside)
  refine sound.grown (nodup_extend nodup) more (fun id inside => ?_)
    (fun id inside => more id (sound.saved id inside)) (fun e inside stored => ?_)
    (fun i e there id inside held => ?_) sound.through trivial
  · rw [idsThrough_succ found] at inside
    exact (mem_append.mp inside).elim (fun old => more id (sound.applied id old)) (all id)
  · rcases mem_append.mp stored with before | new
    · exact .inl before
    · have same : e = entry := inj_on_of_nodup_map distinct.batches inside
        (mem_of_getElem? found) (mem_singleton.mp new)
      rw [same]
      exact .inr all
  · rcases mem_extend.mp held with old | new
    · rcases sound.origin i e there id inside old with receipt | copied | low
      · exact .inl (mem_append_left _ receipt)
      · exact .inr (.inl copied)
      · exact .inr (.inr low)
    · have same := distinct.entry_eq there found inside (part id new)
      subst same
      obtain rfl := Option.some.inj (there.symm.trans found)
      exact .inl (mem_append_right _ (mem_singleton.mpr rfl))

theorem Sound.crash (distinct : Distinct log) (orderly : Orderly log s .crash)
    (ran : step log s .crash = some u) : Sound log u := by
  cases ran
  cases phase : s.phase with
  | committing index entry frame =>
    have standing := sound.standing
    rw [phase] at standing
    obtain ⟨rfl, found, nodup, part, covers⟩ := standing
    have low : s.marks.appliedIndex + 1 ≤ s.saved.copiedThrough :=
      orderly _ (by rw [phase]; rfl)
    have more : ∀ id ∈ s.store.ids, id ∈ (s.store.extend frame).ids := fun id held =>
      mem_extend.mpr (.inl held)
    refine sound.grown (nodup_extend nodup) more (fun id inside => more id (sound.saved id inside))
      (fun id inside => more id (sound.saved id inside)) (fun e _ stored => .inl stored)
      (fun i e there id inside held => ?_) le_rfl trivial
    rcases mem_extend.mp held with old | new
    · exact sound.origin i e there id inside old
    · have same := distinct.entry_eq there found inside (part id new)
      exact .inr (.inr (by omega))
  | _ =>
    exact sound.grown sound.once (fun _ inside => inside) sound.saved sound.saved
      (fun e _ stored => .inl stored) sound.origin le_rfl trivial

theorem Sound.list (distinct : Distinct log) {index peer position : Nat}
    (settled : s.phase = .settled index peer position) (reached : index ≤ position) :
    Sound log { s with phase := .listed index position (s.sources peer).store.segments } := by
  have covers := sound.standing
  rw [settled] at covers
  refine sound.goes ⟨reached, covers, ?_⟩
  have alone := (sound.sources peer).nodup distinct
  rw [Tablet.ids, Tablet.held, idsOf_append] at alone
  exact (List.nodup_append.mp alone).1

theorem Sound.begin {segments : List Segment}
    (listed : s.phase = .listed index position segments) : Sound log { s.sealTarget with
      phase := .copying index position (s.sealTarget.store.segments ≠ []) segments } := by
  have standing := sound.standing
  rw [listed] at standing
  obtain ⟨reached, covers, alone⟩ := standing
  refine sound.sealTarget.goes ⟨reached, alone, fun id inside => .inr (covers id inside), fun plain => ?_⟩
  have empty : s.sealTarget.store.segments = [] := by simpa using plain
  have nothing : s.sealTarget.store.ids = [] := by
    have sealed : s.sealTarget.store.openRows = [] := openRows_sealNow s.fresh
    simp [Tablet.ids, idsOf, Tablet.held, empty, sealed]
  intro g _ id _
  rw [nothing]
  exact not_mem_nil

theorem Sound.installed {reconciling : Bool}
    (copying : s.phase = .copying index position reconciling []) :
    Sound log { s with
      phase := .idle
      marks := ⟨index, max s.marks.copiedThrough position⟩ } := by
  have standing := sound.standing
  rw [copying] at standing
  obtain ⟨reached, -, covered, -⟩ := standing
  refine sound.grown sound.once (fun _ inside => inside) (fun id inside => ?_) sound.saved
    (fun e _ stored => .inl stored) sound.origin (sound.through.trans (le_max_left _ _)) trivial
  rcases covered id (idsThrough_mono reached id inside) with held | ⟨g, there, -⟩
  · exact held
  · cases there

theorem Sound.step (distinct : Distinct log) {e : Event} (orderly : Orderly log s e)
    (ran : step log s e = some u) : Sound log u := by
  cases e with
  | sourceApply peer now =>
    obtain ⟨source, applied, same⟩ := Option.bind_eq_some_iff.mp ran
    cases same
    obtain ⟨feeds, further, segments⟩ := (sound.sources peer).apply distinct applied
    exact sound.setSource feeds further fun g there => segments ▸ there
  | sourceSeal peer =>
    cases ran
    exact sound.sealSource peer
  | targetSeal =>
    simp only [Cluster.step] at ran
    split at ran
    · cases ran
    · cases ran
      exact sound.sealTarget
  | install index =>
    simp only [Cluster.step] at ran
    split at ran
    · rename_i idle
      split at ran
      · cases ran
        exact sound.goes trivial
      · rename_i behind
        cases ran
        refine sound.grown sound.once (fun _ inside => inside) (fun id inside => ?_) sound.saved
          (fun e _ stored => .inl stored) sound.origin sound.through (by rw [idle]; trivial)
        exact sound.applied id (idsThrough_mono (not_lt.mp behind) id inside)
    · cases ran
  | ask peer =>
    simp only [Cluster.step] at ran
    split at ran
    · cases ran
      exact sound.goes le_rfl
    · cases ran
  | peerSeal =>
    simp only [Cluster.step] at ran
    split at ran
    · rename_i index peer position asked
      cases ran
      have reached := sound.standing
      rw [asked] at reached
      refine (sound.sealSource peer).goes ?_
      have covers := (sound.sources peer).covers s.fresh reached
      simpa [Standing, System.sealSource, System.setSource, Tablet.sealed] using covers
    · cases ran
  | list =>
    simp only [Cluster.step] at ran
    split at ran
    · rename_i index peer position settled
      split at ran
      · cases ran
        exact sound.goes trivial
      · rename_i reached
        cases ran
        exact sound.list distinct settled (not_lt.mp reached)
    · cases ran
  | begin =>
    simp only [Cluster.step] at ran
    split at ran
    · rename_i index position segments listed
      cases ran
      exact sound.begin listed
    · cases ran
  | copy =>
    simp only [Cluster.step] at ran
    split at ran
    · rename_i index position reconciling segment left copying
      cases ran
      refine sound.adopt copying fun reconciles => ?_
      subst reconciles
      exact orderly segment (by rw [copying]; rfl)
    · cases ran
  | fail =>
    simp only [Cluster.step] at ran
    split at ran
    · cases ran
      exact sound.goes trivial
    · cases ran
      exact sound.goes trivial
    · cases ran
      exact sound.goes trivial
    · cases ran
      exact sound.goes trivial
    · cases ran
  | giveUp =>
    simp only [Cluster.step] at ran
    split at ran
    · cases ran
      exact sound.goes trivial
    · cases ran
  | installed =>
    simp only [Cluster.step] at ran
    split at ran
    · rename_i index position reconciling copying
      cases ran
      exact sound.installed copying
    · cases ran
  | apply now =>
    simp only [Cluster.step] at ran
    split at ran
    · rename_i idle
      exact sound.applyNext distinct idle orderly ran
    · cases ran
  | receipt =>
    simp only [Cluster.step] at ran
    split at ran
    · rename_i index entry frame committing
      cases ran
      exact sound.receipt distinct committing
    · cases ran
  | save =>
    simp only [Cluster.step] at ran
    split at ran
    · rename_i idle
      cases ran
      refine sound.grown sound.once (fun _ inside => inside) sound.applied sound.applied
        (fun e _ stored => .inl stored) (fun i e found id inside held => ?_) le_rfl
        (by rw [idle]; trivial)
      rcases sound.origin i e found id inside held with receipt | copied | low
      · exact .inl receipt
      · exact .inr (.inl copied)
      · exact .inr (.inr (low.trans_le sound.through))
    · cases ran
  | crash => exact sound.crash distinct orderly ran

omit sound

end

/-- In every orderly run the target holds each event at or below the position it reports
exactly once. -/
theorem each_row_held_once (log : List Entry) (distinct : Distinct log) (s : System)
    (run : Reach (step log) (Orderly log) .start s) :
    ∀ id ∈ idsThrough log s.marks.appliedIndex, s.store.ids.count id = 1 := by
  have sound : Sound log s := run.invariant (Sound log) sound_start fun _ _ _ before orderly ran =>
    before.step distinct orderly ran
  exact fun id inside => List.count_eq_one_of_mem sound.once (sound.applied id inside)

def twoBatches : List Entry :=
  [⟨1, 1, [EventRow.new 1 "event" "first" 5]⟩, ⟨1, 2, [EventRow.new 2 "event" "second" 6]⟩]

theorem distinct_twoBatches : Distinct twoBatches := ⟨by decide, by decide⟩

/-- A snapshot at the first entry, copied from a peer that is not ahead of it, and then the
second entry from the log. -/
def caughtUp : List Event :=
  [.sourceApply 0 10, .install 1, .ask 0, .peerSeal, .list, .begin, .copy, .installed, .save,
    .apply 11, .receipt, .save, .crash]

theorem each_row_held_once_caught_up : ∃ s, Reach (step twoBatches) (Orderly twoBatches) .start s ∧
    s.marks.appliedIndex = 2 ∧ ∀ id ∈ idsThrough twoBatches 2, s.store.ids.count id = 1 := by
  obtain ⟨s, run, level⟩ := @Reach.of_exec_any _ _ (step twoBatches) (Orderly twoBatches) _ .start caughtUp
    (fun s => s.marks.appliedIndex = 2) (by decide +kernel)
  have level : s.marks.appliedIndex = 2 := by simpa using level
  have once := each_row_held_once twoBatches distinct_twoBatches s run
  rw [level] at once
  exact ⟨s, run, level, once⟩

/-- The peer applies and seals the second entry after it read its position. -/
def listedLate : List Event :=
  [.sourceApply 0 10, .install 1, .ask 0, .sourceApply 0 11, .peerSeal, .list, .begin, .copy,
    .installed, .save, .apply 12, .receipt]

/-- The second row is copied past the position that was read, and applied unchecked. -/
theorem row_held_twice : ∃ s, Reach (step twoBatches) anyStep .start s ∧ s.marks.appliedIndex = 2 ∧
    2 ∈ idsThrough twoBatches 2 ∧ s.store.ids.count 2 = 2 := by
  obtain ⟨s, run, twice⟩ := @Reach.of_exec_any _ _ (step twoBatches) anyStep _ .start listedLate
    (fun s => s.marks.appliedIndex = 2 ∧ s.store.ids.count 2 = 2) (by decide +kernel)
  have twice : s.marks.appliedIndex = 2 ∧ s.store.ids.count 2 = 2 := by simpa using twice
  exact ⟨s, run, twice.1, by decide, twice.2⟩

end TallyOwl.Cluster
