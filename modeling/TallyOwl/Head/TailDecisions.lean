import TallyOwl.Head.Sampling

/-! What a recorded tail decision says of the rows that a reader sees, over any order of commits,
sweeps and crashes. -/
namespace TallyOwl.Sampling
open Lib List OrderedMap

def names (t : Tombstone) (traceId : Id) : Prop := t.property = some ("trace_id", hex traceId.bytes)

structure Agrees (s : TailSampler) (w : World) : Prop where
  kept : ∀ id a, w.decisions.get? id = some a → a.keep = true → ∀ row ∈ w.rows,
    row.traceId = some id → ∀ t ∈ w.tail, t.hides s.floatText row = false
  dropped : ∀ id a, w.decisions.get? id = some a → a.keep = false → ∀ row ∈ w.rows,
    row.traceId = some id → w.visible s row = true → row.kind ∈ alwaysKeepKinds
  own : ∀ id a, w.decisions.get? id = some a → ∀ row ∈ w.rows, row.traceId = some id →
    a.keep = (judge s (a.seen.filter fun seen => seen.projectId = row.projectId) id).keep

/-- Every row of a trace is of the trace's one project, and a trace with visible rows is judged only
while no tombstone of it stands. -/
def Meets (s : TailSampler) (home : Id → Id) (w : World) : Event → Prop
  | .observes rows => ∀ row ∈ rows, ∀ id, row.traceId = some id → row.projectId = home id
  | .sweeps => ∀ now id entry queue, w.stage = .looks now id entry queue → w.lookup s id ≠ [] →
      ∀ t ∈ w.tail, ¬ names t id
  | _ => True

/-- A tombstone that the sampler made for a trace of a project. -/
structure Drops (home : Id → Id) (id : Id) (t : Tombstone) : Prop where
  project : t.projectId = home id
  property : names t id
  events : t.eventIds = []
  except : t.exceptKinds = alwaysKeepKinds
  range : t.range = none

def AtHome (home : Id → Id) (rows : List EventRow) : Prop :=
  ∀ row ∈ rows, ∀ id, row.traceId = some id → row.projectId = home id

/-- What a decision rests on: no tombstone of a kept trace, and one of a dropped trace. -/
structure Stands (s : TailSampler) (home : Id → Id) (tail : List Tombstone) (id : Id) (keep : Bool)
    (seen : List EventRow) : Prop where
  judged : keep = (judge s seen id).keep
  single : ∀ row ∈ seen, row.projectId = home id
  kept : keep = true → ∀ t ∈ tail, ¬ names t id
  dropped : keep = false → ∃ t ∈ tail, Drops home id t

def Queued (home : Id → Id) (queue : List (Id × Open)) : Prop := ∀ e ∈ queue, e.2.projectId = home e.1

def Fits (s : TailSampler) (home : Id → Id) (w : World) : Prop :=
  match w.stage with
  | .idle => True
  | .decides _ queue | .forgets _ _ queue => Queued home queue
  | .looks _ id entry queue => w.decisions.get? id = none ∧ entry.projectId = home id ∧ Queued home queue
  | .erases _ id entry decision seen queue => w.decisions.get? id = none ∧ entry.projectId = home id ∧
      (decision = judge s seen id ∧ decision.keep = false ∧ ∀ row ∈ seen, row.projectId = home id) ∧
        Queued home queue
  | .records _ id keep seen queue => w.decisions.get? id = none ∧ Stands s home w.tail id keep seen ∧
      Queued home queue

structure Kept (s : TailSampler) (home : Id → Id) (w : World) : Prop where
  rows : AtHome home w.rows
  pending : ∀ batch ∈ w.pending, AtHome home batch
  openTraces : ∀ id entry, w.openTraces.get? id = some entry → entry.projectId = home id
  tail : ∀ t ∈ w.tail, ∃ id, Drops home id t
  decided : ∀ id a, w.decisions.get? id = some a → Stands s home w.tail id a.keep a.seen
  fits : Fits s home w

section
variable {s : TailSampler} {home : Id → Id} {w u : World} {id : Id} {t : Tombstone} {row : EventRow}

theorem hex_injective {a b : Id} (same : hex a.bytes = hex b.bytes) : a = b := by
  have bytes := congrArg RowCodec.fromHex same
  rw [RowCodec.fromHex_hex, RowCodec.fromHex_hex] at bytes
  have back := congrArg Id.ofBytes (Option.some.inj bytes)
  simpa using back

theorem names_injective {a b : Id} (first : names t a) (second : names t b) : a = b :=
  hex_injective (congrArg Prod.snd (Option.some.inj (first.symm.trans second)))

theorem Drops.hides_iff {floatText : UInt64 → String} {traceId : Id} (drops : Drops home id t)
    (trace : row.traceId = some traceId) : t.hides floatText row = true ↔
      row.projectId = home id ∧ row.kind ∉ alwaysKeepKinds ∧ traceId = id := by
  obtain ⟨project, property, events, except, range⟩ := drops
  have column : correlationOf row "trace_id" = some (hex traceId.bytes) := by
    simp [correlationOf, trace]
  have same : hex traceId.bytes = hex id.bytes ↔ traceId = id := ⟨hex_injective, fun h => h ▸ rfl⟩
  unfold Tombstone.hides
  rw [property]
  simp only [project, events, except, range, column]
  by_cases home : row.projectId = home id <;> by_cases kind : row.kind ∈ alwaysKeepKinds <;>
    simp [home, kind, same]

theorem Kept.agrees (kept : Kept s home w) : Agrees s w := by
  refine ⟨fun id a found keep row inside trace t member => ?_, fun id a found keep row inside trace seen => ?_,
    fun id a found row inside trace => ?_⟩
  · obtain ⟨other, drops⟩ := kept.tail t member
    rw [Bool.eq_false_iff]
    intro hides
    obtain ⟨-, -, rfl⟩ := (drops.hides_iff trace).mp hides
    exact (kept.decided id a found).kept keep t member drops.property
  · obtain ⟨t, member, drops⟩ := (kept.decided id a found).dropped keep
    by_contra ordinary
    have hides : t.hides s.floatText row = true :=
      (drops.hides_iff trace).mpr ⟨kept.rows row inside id trace, ordinary, rfl⟩
    have hidden : hiddenBy s.floatText (w.tail ++ w.erasures) row = true :=
      hiddenBy_iff.mpr ⟨t, mem_append_left _ member, hides⟩
    simp [World.visible, hidden] at seen
  · obtain ⟨judged, single, -, -⟩ := kept.decided id a found
    have whole : (a.seen.filter fun seen => seen.projectId = row.projectId) = a.seen := by
      refine filter_eq_self.mpr fun x member => ?_
      simp [single x member, kept.rows row inside id trace]
    rw [whole]
    exact judged

theorem note_home {openTraces : OrderedMap Id Open}
    (homes : ∀ id entry, openTraces.get? id = some entry → entry.projectId = home id)
    (atHome : ∀ id, row.traceId = some id → row.projectId = home id) {entry : Open}
    (found : (note openTraces row).get? id = some entry) : entry.projectId = home id := by
  unfold note at found
  split at found
  · exact homes id entry found
  · rename_i traceId trace
    split at found <;> rename_i held <;> rw [get?_insert] at found <;> split at found <;>
      rename_i same
    · cases found
      have old := homes traceId _ held
      rw [same]
      exact old
    · exact homes id entry found
    · cases found
      exact same ▸ atHome traceId trace
    · exact homes id entry found

theorem observe_home {rows : List EventRow} (atHome : AtHome home rows) {openTraces : OrderedMap Id Open}
    (homes : ∀ id entry, openTraces.get? id = some entry → entry.projectId = home id) :
    ∀ id entry, (observe openTraces rows).get? id = some entry → entry.projectId = home id := by
  induction rows generalizing openTraces with
  | nil => exact homes
  | cons row rest ih =>
    exact ih (fun x inside => atHome x (mem_cons_of_mem _ inside))
      fun id entry found => note_home homes (atHome row mem_cons_self) found

theorem Stands.more {keep : Bool} {seen : List EventRow} (stands : Stands s home w.tail id keep seen) (fresh : ∀ a, names t a → a ≠ id) :
    Stands s home (w.tail ++ [t]) id keep seen := by
  refine ⟨stands.judged, stands.single, fun keep other member => ?_, fun keep => ?_⟩
  · rcases mem_append.mp member with old | new
    · exact stands.kept keep other old
    · obtain rfl := mem_singleton.mp new
      exact fun named => fresh id named rfl
  · obtain ⟨other, member, drops⟩ := stands.dropped keep
    exact ⟨other, mem_append_left _ member, drops⟩

theorem mem_lookup {x : EventRow} : x ∈ w.lookup s id → x ∈ w.rows ∧ x.traceId = some id := by
  intro member
  obtain ⟨inside, test⟩ := List.mem_filter.mp member
  simp only [Bool.and_eq_true, decide_eq_true_eq] at test
  exact ⟨inside, test.1⟩

theorem Kept.stage (kept : Kept s home w) {stage : Stage} (fits : Fits s home { w with stage }) :
    Kept s home { w with stage } :=
  ⟨kept.rows, kept.pending, kept.openTraces, kept.tail, kept.decided, fits⟩

theorem Kept.sweep (kept : Kept s home w) (meets : Meets s home w .sweeps) (next : w.sweep s = some u) :
    Kept s home u := by
  have fits := kept.fits
  unfold Fits at fits
  unfold World.sweep at next
  split at next <;> rename_i stage <;> simp only [stage] at fits
  case h_1 => cases next
  case h_2 =>
    cases next
    exact kept.stage trivial
  case h_3 now id entry queue =>
    have rest : Queued home queue := fun e inside => fits e (mem_cons_of_mem _ inside)
    split at next <;> rename_i decided <;> cases next
    · exact kept.stage rest
    · exact kept.stage ⟨decided, fits _ mem_cons_self, rest⟩
  case h_4 now id entry queue =>
    obtain ⟨undecided, project, rest⟩ := fits
    simp only at next
    split at next <;> rename_i found
    · cases next
      exact kept.stage rest
    · have single : ∀ row ∈ w.lookup s id, row.projectId = home id := fun row member =>
        kept.rows row (mem_lookup member).1 id (mem_lookup member).2
      split at next <;> rename_i keep <;> cases next
      · exact kept.stage ⟨undecided, ⟨keep.symm, single, fun _ => meets _ _ _ _ stage found,
          fun no => (by cases no)⟩, rest⟩
      · exact kept.stage ⟨undecided, project, ⟨rfl, by simpa using keep, single⟩, rest⟩
  case h_5 now id entry decision seen queue =>
    cases next
    obtain ⟨undecided, project, ⟨judged, drop, single⟩, rest⟩ := fits
    have drops : Drops home id (tombstone s id entry now decision) := ⟨project, rfl, rfl, rfl, rfl⟩
    refine ⟨kept.rows, kept.pending, kept.openTraces, fun t member => ?_, fun other a found => ?_, undecided,
      ⟨judged ▸ drop.symm, single, fun yes => (by cases yes), fun _ => ⟨_, mem_append_right _ mem_cons_self, drops⟩⟩,
      rest⟩
    · rcases mem_append.mp member with old | new
      · exact kept.tail t old
      · obtain rfl := mem_singleton.mp new
        exact ⟨id, drops⟩
    · refine (kept.decided other a found).more fun b named same => ?_
      obtain rfl := names_injective named drops.property
      rw [same, found] at undecided
      cases undecided
  case h_6 now id keep seen queue =>
    cases next
    obtain ⟨-, stands, rest⟩ := fits
    refine ⟨kept.rows, kept.pending, kept.openTraces, kept.tail, fun other a found => ?_, rest⟩
    have found : (w.decisions.insert id ⟨keep, now, seen⟩).get? other = some a := found
    rw [get?_insert] at found
    split at found <;> rename_i same
    · cases found
      exact same ▸ stands
    · exact kept.decided other a found
  case h_7 now id queue =>
    cases next
    refine ⟨kept.rows, kept.pending, fun other entry found => ?_, kept.tail, kept.decided, fits⟩
    have found : (w.openTraces.erase id).get? other = some entry := found
    rw [get?_erase] at found
    split at found
    · cases found
    · exact kept.openTraces other entry found

theorem Kept.fail (kept : Kept s home w) (next : w.fail = some u) : Kept s home u := by
  have fits := kept.fits
  unfold Fits at fits
  unfold World.fail at next
  split at next <;> rename_i stage
  case h_6 => cases next
  all_goals
    simp only [stage] at fits
    cases next
  · exact kept.stage fits.2.2
  · exact kept.stage fits.2.2.2
  · exact kept.stage fits.2.2
  · exact kept.stage fits
  · exact kept.stage fun e inside => fits e (mem_cons_of_mem _ inside)

theorem Kept.step {e : Event} (kept : Kept s home w) (meets : Meets s home w e) (next : w.step s e = some u) :
    Kept s home u := by
  cases e with
  | observes rows =>
    cases next
    refine ⟨kept.rows, fun batch member => ?_, observe_home meets kept.openTraces, kept.tail, kept.decided,
      kept.fits⟩
    rcases mem_append.mp member with old | new
    · exact kept.pending batch old
    · obtain rfl := mem_singleton.mp new
      exact meets
  | commits i =>
    obtain ⟨rows, there, rfl⟩ := Option.map_eq_some_iff.mp next
    refine ⟨fun row member => ?_, fun batch member => kept.pending batch (mem_of_mem_eraseIdx member),
      kept.openTraces, kept.tail, kept.decided, kept.fits⟩
    rcases mem_append.mp member with old | new
    · exact kept.rows row old
    · exact kept.pending rows (mem_of_getElem? there) row new
  | drops i =>
    obtain ⟨rows, there, rfl⟩ := Option.map_eq_some_iff.mp next
    exact ⟨kept.rows, fun batch member => kept.pending batch (mem_of_mem_eraseIdx member),
      kept.openTraces, kept.tail, kept.decided, kept.fits⟩
  | erasure tombstone =>
    cases next
    exact ⟨kept.rows, kept.pending, kept.openTraces, kept.tail, kept.decided, kept.fits⟩
  | begins now =>
    simp only [World.step] at next
    split at next <;> cases next
    refine kept.stage fun e inside => ?_
    have held := (List.mem_filter.mp inside).1
    exact kept.openTraces e.1 e.2 (get?_eq_some.mpr held)
  | sweeps => exact kept.sweep meets next
  | fails => exact kept.fail next
  | crashes =>
    cases next
    exact ⟨kept.rows, fun batch member => (by cases member), fun id entry found => (by cases found),
      kept.tail, kept.decided, trivial⟩

def Undecided (w : World) : Prop :=
  match w.stage with
  | .looks _ id _ _ | .erases _ id _ _ _ _ | .records _ id _ _ _ => w.decisions.get? id = none
  | _ => True

theorem decisions_step {e : Event} (undecided : Undecided w) (next : w.step s e = some u) :
    Undecided u ∧ ∀ id a, w.decisions.get? id = some a → u.decisions.get? id = some a := by
  unfold Undecided at undecided
  cases e with
  | observes | erasure =>
    cases next
    exact ⟨undecided, fun _ _ found => found⟩
  | crashes =>
    cases next
    exact ⟨trivial, fun _ _ found => found⟩
  | commits | drops =>
    obtain ⟨rows, there, rfl⟩ := Option.map_eq_some_iff.mp next
    exact ⟨undecided, fun _ _ found => found⟩
  | begins now =>
    simp only [World.step] at next
    split at next <;> cases next
    exact ⟨trivial, fun _ _ found => found⟩
  | fails =>
    simp only [World.step, World.fail] at next
    split at next <;> cases next <;> exact ⟨trivial, fun _ _ found => found⟩
  | sweeps =>
    simp only [World.step, World.sweep] at next
    split at next <;> rename_i stage <;> simp only [stage] at undecided
    case h_1 => cases next
    case h_2 | h_7 =>
      cases next
      exact ⟨trivial, fun _ _ found => found⟩
    case h_3 =>
      split at next <;> rename_i decided <;> cases next
      · exact ⟨trivial, fun _ _ found => found⟩
      · exact ⟨decided, fun _ _ found => found⟩
    case h_4 =>
      split at next
      · cases next
        exact ⟨trivial, fun _ _ found => found⟩
      · split at next <;> cases next <;> exact ⟨undecided, fun _ _ found => found⟩
    case h_5 =>
      cases next
      exact ⟨undecided, fun _ _ found => found⟩
    case h_6 now id keep seen queue =>
      cases next
      refine ⟨trivial, fun other a found => ?_⟩
      have apart : other ≠ id := by
        rintro rfl
        rw [undecided] at found
        cases found
      show (w.decisions.insert id ⟨keep, now, seen⟩).get? other = some a
      rw [get?_insert, if_neg apart]
      exact found

theorem undecided_of_reach {ok : World → Event → Prop} (run : Reach (World.step s) ok .new w) : Undecided w :=
  run.invariant Undecided (show Undecided .new from trivial) fun _ _ _ undecided _ next => (decisions_step undecided next).1

/-- The run theorem: while each trace keeps to one project and none is judged under a tombstone of its
own, decisions and visible rows agree. In every run a recorded decision stays as it is. -/
theorem tail_agrees (s : TailSampler) (home : Id → Id) :
    (∀ w, Reach (World.step s) (Meets s home) .new w → Agrees s w) ∧
      ∀ w u, Reach (World.step s) anyStep .new w → Reach (World.step s) anyStep w u →
        ∀ id a, w.decisions.get? id = some a → u.decisions.get? id = some a := by
  constructor
  · intro w run
    have kept : Kept s home w := by
      refine run.invariant (Kept s home) ⟨fun row member => (by cases member), fun batch member => (by cases member),
        fun id entry found => (by cases found), fun t member => (by cases member),
        fun id a found => (by cases found), show Fits s home .new from trivial⟩ ?_
      exact fun _ _ _ kept meets next => kept.step meets next
    exact kept.agrees
  · intro w u first rest id a found
    have both : Undecided u ∧ u.decisions.get? id = some a := by
      refine rest.invariant (fun u => Undecided u ∧ u.decisions.get? id = some a)
        ⟨undecided_of_reach first, found⟩ ?_
      rintro x e y ⟨undecided, held⟩ - next
      obtain ⟨later, keeps⟩ := decisions_step undecided next
      exact ⟨later, keeps id a held⟩
    exact both.2

end

/-! A sampler that keeps no ordinary trace, and one trace. -/

def strict : TailSampler := ⟨⟨60000, 30000, 0, 2000⟩, fun _ => 0, fun _ => 0, fun _ => ""⟩

def traced (eventId project : Id) (kind : String) : EventRow :=
  { EventRow.new eventId kind "" 0 with projectId := project, traceId := some 5 }

def shared : List Event :=
  [.observes [traced 1 1 "span", traced 2 2 "span"], .commits 0, .begins 100000, .sweeps, .sweeps, .sweeps, .sweeps]

def decidedAs (w : World) (keep : Bool) : Bool := (w.decisions.get? 5).any fun a => a.keep = keep

theorem decided_of_decidedAs {w : World} {keep : Bool} (decided : decidedAs w keep = true) :
    ∃ a, w.decisions.get? 5 = some a ∧ a.keep = keep := by
  obtain ⟨a, found, test⟩ := (Option.any_eq_true _ _).mp decided
  exact ⟨a, found, by simpa using test⟩

/-- The rows of the second project stay visible under a recorded drop. -/
theorem other_project_is_visible : ¬ ∀ w, Reach (World.step strict) anyStep .new w → Agrees strict w := by
  intro always
  have ran : (exec (guarded (World.step strict) anyStep) .new shared).any (fun w => decidedAs w false &&
      w.rows.any fun row => row.traceId = some 5 && w.visible strict row && row.kind = "span") = true := by
    decide +kernel
  obtain ⟨w, run, seen⟩ := Reach.of_exec_any ran
  obtain ⟨decided, some_row⟩ := Bool.and_eq_true_iff.mp seen
  obtain ⟨a, found, drop⟩ := decided_of_decidedAs decided
  obtain ⟨row, inside, test⟩ := List.any_eq_true.mp some_row
  simp only [Bool.and_eq_true, decide_eq_true_eq] at test
  obtain ⟨⟨trace, visible⟩, span⟩ := test
  have kind := (always w run).dropped 5 a found drop row inside trace visible
  rw [span] at kind
  exact absurd kind (by decide)

end TallyOwl.Sampling
