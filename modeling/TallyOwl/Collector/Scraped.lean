import TallyOwl.Collector.Scrape
import TallyOwl.Head.Increase
import Mathlib.Data.List.Chain

/-! A target's counter, the readings a scraper takes of it and the increase that is counted over
them. The counts the target truly made are carried beside each reading. -/
namespace TallyOwl.Scrape
open Lib Wire List OrderedMap
open Query (QueryError)
open Rollup (Row CounterSample Series addCounterSample addSample finishCounter counterSampleCap counted)

structure Counter where
  target : String
  family : String
  name : String
  labels : List Property

/-- A point that was produced for the counter, with what was true of the target. -/
structure Reading where
  startAt : Int
  endAt : Int
  value : ℚ
  counts : ℚ
  restarts : Nat
  fresh : Bool

structure World where
  total : ℚ
  counts : ℚ
  restarts : Nat
  state : State
  log : List Reading

def World.start : World := ⟨0, 0, 0, .start, []⟩

inductive Event where
  | counts (n : ℚ)
  | restarts
  /-- The target is read, with what else it publishes before and after the counter. -/
  | scraped (before after : List Point) (timestampMs : Option Int) (now : Int)
  | other (target : String) (points : List Point) (now : Int)
  | forgets

variable (scraper : Scraper) (c : Counter)

def Counter.point (value : ℚ) (timestampMs : Option Int) (now : Int) : Point :=
  counterPoint c.family ⟨c.name, c.labels, value, timestampMs⟩ now

def Counter.key : Key :=
  keyOf scraper c.target (nameTheProducer (scraper.instanceOf c.target) (c.point 0 none 0))

/-- Whether a point that a target publishes is of another series than the counter. -/
def Counter.apart (target : String) (p : Point) : Bool :=
  keyOf scraper target (nameTheProducer (scraper.instanceOf target) p) ≠ c.key scraper

def step (w : World) : Event → Option World
  | .counts n => if 0 ≤ n then some { w with total := w.total + n, counts := w.counts + n } else none
  | .restarts => some { w with total := 0, restarts := w.restarts + 1 }
  | .scraped before after timestampMs now =>
      let read := c.point w.total timestampMs now
      if before.all (c.apart scraper c.target) ∧ after.all (c.apart scraper c.target) ∧
          (w.log.head?.all fun last => last.endAt < read.endAt) = true then
        let (state, result) := normalize scraper c.target now w.state (before ++ read :: after)
        let mine := result.points.filter fun p => keyOf scraper c.target p = c.key scraper
        some { w with
          state
          log := (mine.map fun p => ⟨p.startAt, p.endAt, p.value, w.counts, w.restarts,
            (w.state.seen (c.key scraper)).isNone⟩).reverse ++ w.log }
      else none
  | .other target points now =>
      if points.all (c.apart scraper target) then
        some { w with state := (normalize scraper target now w.state points).1 }
      else none
  | .forgets => some { w with state := .start }

section
variable (parse : String → Option ℚ) (measure : String)

/-- The row a point of the counter is stored as, with the columns an increase reads. -/
def Counter.row (r : Reading) : Row :=
  ((((Row.new 0 "metric-point" (c.point 0 none 0).metricName r.endAt).withProperty "value" (.float r.value) "client").withProperty
    "series_key" (.text (c.key scraper).2.2) "client").withProperty
    "temporality" (.text "cumulative") "client" |>.withProperty
    "start_at" (.integer r.startAt) "client").withProperty "end_at" (.integer r.endAt) "client"

def Counter.increase (log : List Reading) : Except QueryError Rollup.Value :=
  ((log.reverse.map (c.row scraper)).foldlM (addCounterSample parse measure) ∅).map (finishCounter false)

end

/-- The counts the target made between the first reading and the last. -/
def happened (log : List Reading) : ℚ :=
  (log.head?.map Reading.counts).getD 0 - (log.getLast?.map Reading.counts).getD 0

def Reading.adds (b a : Reading) : ℚ :=
  if b.fresh = true ∨ b.value < a.value then b.value else b.value - a.value

/-- The level before a reading, where what was held of it is forgotten and the target ran on. -/
def Reading.excess (b a : Reading) : ℚ := if b.fresh = true ∧ b.restarts = a.restarts then a.value else 0

def Reading.lost (b a : Reading) : ℚ :=
  if b.restarts = a.restarts then 0 else b.counts - a.counts - b.adds a

/-- The sum of a quantity over each reading and the one before it. -/
def sumOver (f : Reading → Reading → ℚ) : List Reading → ℚ
  | b :: a :: rest => f b a + sumOver f (a :: rest)
  | _ => 0

/-- No restart of the target and nothing forgotten, since the first reading. -/
def Uninterrupted (log : List Reading) : Prop :=
  log.IsChain fun b a => b.restarts = a.restarts ∧ b.fresh = false

section
variable {scraper : Scraper} {c : Counter} {parse : String → Option ℚ} {measure : String}

def Reading.sample (r : Reading) : CounterSample := ⟨r.endAt, r.startAt, r.value, false⟩

def oneSeries (key : String) (samples : List CounterSample) : Series :=
  if samples = [] then ∅ else (∅ : Series).insert key samples

theorem get?_oneSeries (key : String) (samples : List CounterSample) :
    ((oneSeries key samples).get? key).getD [] = samples := by
  unfold oneSeries
  split <;> rename_i empty
  · rw [empty]
    rfl
  · simp [get?_insert]

theorem insert_oneSeries (key : String) (samples : List CounterSample) (last : CounterSample) :
    (oneSeries key samples).insert key (samples ++ [last]) = oneSeries key (samples ++ [last]) := by
  refine ext_of_get? fun k => ?_
  by_cases same : k = key <;> by_cases empty : samples = [] <;>
    simp [oneSeries, empty, same, get?_insert]

theorem addCounterSample_row (samples : List CounterSample) (r : Reading) :
    addCounterSample parse measure (oneSeries (c.key scraper).2.2 samples) (c.row scraper r) =
      if counterSampleCap ≤ samples.length then .error (Rollup.overCap measure)
      else .ok (oneSeries (c.key scraper).2.2 (samples ++ [r.sample])) := by
  have columns : ∀ key, (c.row scraper r).properties.get? key =
      if key = "end_at" then some (.integer r.endAt, "client")
      else if key = "start_at" then some (.integer r.startAt, "client")
      else if key = "temporality" then some (.text "cumulative", "client")
      else if key = "series_key" then some (.text (c.key scraper).2.2, "client")
      else if key = "value" then some (.float r.value, "client") else none := by
    intro key
    simp only [Counter.row, Rollup.Row.withProperty, get?_insert]
    rfl
  have series : Rollup.seriesOf (c.row scraper r) = (c.key scraper).2.2 := by
    simp [Rollup.seriesOf, Rollup.text, Rollup.value, columns]
  unfold addCounterSample
  rw [series, get?_oneSeries]
  simp [Rollup.numberProperty, Rollup.asFloat, Rollup.text, Rollup.integer, Rollup.value, columns,
    Reading.sample, insert_oneSeries]

theorem gather (readings : List Reading) (samples : List CounterSample) (room : samples.length ≤ counterSampleCap) :
    (readings.map (c.row scraper)).foldlM (addCounterSample parse measure) (oneSeries (c.key scraper).2.2 samples) =
      if samples.length + readings.length ≤ counterSampleCap then
        .ok (oneSeries (c.key scraper).2.2 (samples ++ readings.map Reading.sample))
      else .error (Rollup.overCap measure) := by
  induction readings generalizing samples with
  | nil => simp [room, pure, Except.pure]
  | cons r rest ih =>
    rw [map_cons, foldlM_cons, addCounterSample_row]
    by_cases full : counterSampleCap ≤ samples.length
    · have past : ¬ samples.length + (r :: rest).length ≤ counterSampleCap := by
        simp only [length_cons]
        omega
      rw [if_pos full, if_neg past]
      rfl
    · rw [if_neg full]
      refine (ih _ (by simp only [length_append, length_singleton]; omega)).trans ?_
      simp [add_comm, add_left_comm]

theorem counted_finish {key : String} {samples : List CounterSample}
    (rising : samples.Pairwise fun a b => a.moment ≤ b.moment) :
    counted (finishCounter false (oneSeries key samples)) = (samples.foldl addSample (0, none)).1 := by
  cases samples with
  | nil => rfl
  | cons first rest =>
    have sorted : (first :: rest).insertionSort (fun a b => a.moment ≤ b.moment) = first :: rest :=
      rising.insertionSort_eq
    have values : (oneSeries key (first :: rest)).values = [first :: rest] := rfl
    unfold finishCounter
    rw [values]
    simp only [foldl_cons, foldl_nil, Rollup.Totals.add, sorted, Rollup.Totals.start]
    rfl

def gained : List Reading → ℚ := sumOver fun b a =>
  if b.startAt ≠ a.startAt ∨ b.value < a.value then b.value else b.value - a.value

theorem foldl_addSample (log : List Reading) : (log.reverse.map Reading.sample).foldl addSample (0, none) =
      (gained log, log.head?.map Reading.sample) := by
  induction log with
  | nil => rfl
  | cons b rest ih =>
    rw [reverse_cons, map_append, foldl_append, ih]
    cases rest with
    | nil => simp [addSample, gained, sumOver, Reading.sample]
    | cons a older => simp [addSample, gained, sumOver, Reading.sample, add_comm]

theorem increase_eq {log : List Reading} (rising : log.Pairwise fun b a => a.endAt ≤ b.endAt) :
    (∀ v, c.increase scraper parse measure log = .ok v → counted v = gained log) ∧
      ((∃ v, c.increase scraper parse measure log = .ok v) ↔ log.length ≤ counterSampleCap) := by
  have start : (∅ : Series) = oneSeries (c.key scraper).2.2 [] := rfl
  have sorted : (log.reverse.map Reading.sample).Pairwise fun a b => a.moment ≤ b.moment := by
    rw [pairwise_map, pairwise_reverse]
    exact rising
  have sum : counted (finishCounter false (oneSeries (c.key scraper).2.2
      (log.reverse.map Reading.sample))) = gained log :=
    (counted_finish sorted).trans (congrArg Prod.fst (foldl_addSample log))
  unfold Counter.increase
  rw [start, gather _ _ (Nat.zero_le _)]
  simp only [length_nil, length_reverse, zero_add, nil_append]
  split <;> rename_i fits
  · refine ⟨?_, iff_of_true ⟨_, rfl⟩ fits⟩
    intro v found
    cases found
    exact sum
  · refine ⟨?_, iff_of_false ?_ fits⟩
    · intro v found
      cases found
    · rintro ⟨v, found⟩
      cases found

end

section
variable {scraper : Scraper} {c : Counter}

/-- What the target did after a reading, up to some later totals. -/
def Since (a : Reading) (restarts : Nat) (counts total : ℚ) : Prop :=
  if restarts = a.restarts then counts - a.counts = total - a.value ∧ a.value ≤ total
  else total ≤ counts - a.counts

/-- One reading after another. Its start differs exactly when nothing was held or the total fell. -/
structure Follows (b a : Reading) : Prop where
  since : Since a b.restarts b.counts b.value
  rises : a.endAt < b.endAt
  starts : b.startAt ≠ a.startAt ∨ b.value < a.value ↔ b.fresh = true ∨ b.value < a.value

structure Kept (scraper : Scraper) (c : Counter) (w : World) : Prop where
  total : 0 ≤ w.total
  held : ∀ s, w.state.seen (c.key scraper) = some s →
    ∃ r, w.log.head? = some r ∧ s.value = r.value ∧ s.startAt = r.startAt
  since : ∀ r, w.log.head? = some r → Since r w.restarts w.counts w.total ∧ r.restarts ≤ w.restarts
  chain : w.log.IsChain Follows
  each : ∀ r ∈ w.log, 0 ≤ r.value ∧ r.startAt ≤ r.endAt

/-- What a scrape of the counter's target does: one more reading, from what was held of the series. -/
structure Scraped (scraper : Scraper) (c : Counter) (w t : World) (r : Reading) : Prop where
  same : t.total = w.total ∧ t.counts = w.counts ∧ t.restarts = w.restarts
  log : t.log = r :: w.log
  reading : r.value = w.total ∧ r.counts = w.counts ∧ r.restarts = w.restarts
  rises : ∀ last, w.log.head? = some last → last.endAt < r.endAt
  fresh : w.state.seen (c.key scraper) = none → r.fresh = true ∧ r.startAt = r.endAt
  held : ∀ s, w.state.seen (c.key scraper) = some s →
    r.fresh = false ∧ r.startAt = if w.total < s.value then r.endAt else s.startAt
  holds : ∀ s, t.state.seen (c.key scraper) = some s → s.value = r.value ∧ s.startAt = r.startAt

theorem seen_other {w : World} {target : String} {points : List Point} {now : Int}
    (others : points.all (c.apart scraper target) = true) {s : Seen}
    (held : (normalize scraper target now w.state points).1.seen (c.key scraper) = some s) :
    w.state.seen (c.key scraper) = some s := by
  have apart : ∀ p ∈ points.map (nameTheProducer (scraper.instanceOf target)),
      keyOf scraper target p ≠ c.key scraper := by
    intro p inside
    obtain ⟨q, member, rfl⟩ := mem_map.mp inside
    simpa [Counter.apart] using all_eq_true.mp others q member
  unfold normalize at held
  rcases @sweep_seen scraper now (c.key scraper) ⟨(judgeAll scraper target now w.state.seen
    (points.map (nameTheProducer (scraper.instanceOf target)))).1, w.state.sweptAt⟩ with left | forgotten
  · exact (judgeAll_other apart).symm.trans (left.symm.trans held)
  · cases forgotten.symm.trans held

variable {w t : World}

theorem scraped_of_step {before after : List Point} {timestampMs : Option Int} {now : Int}
    (next : step scraper c w (.scraped before after timestampMs now) = some t) : ∃ r, Scraped scraper c w t r := by
  simp only [step] at next
  split at next <;> rename_i guards
  swap
  · cases next
  obtain ⟨first, last, rises⟩ := guards
  let name := nameTheProducer (scraper.instanceOf c.target)
  let read := name (c.point w.total timestampMs now)
  have apart : ∀ points : List Point, points.all (c.apart scraper c.target) = true →
      ∀ p ∈ points.map name, keyOf scraper c.target p ≠ c.key scraper := by
    intro points all p inside
    obtain ⟨q, member, rfl⟩ := mem_map.mp inside
    simpa [Counter.apart] using all_eq_true.mp all q member
  obtain ⟨holds, made⟩ := @judgeAll_one scraper c.target now w.state.seen (c.key scraper)
    (before.map name) (after.map name) read (show MetricKind.counter ≠ .gauge by decide) rfl (apart before first) (apart after last)
  have body : (before ++ c.point w.total timestampMs now :: after).map name =
      before.map name ++ read :: after.map name := by simp [read]
  simp only [normalize] at next
  rw [body, made] at next
  have endAt : read.endAt = (c.point w.total timestampMs now).endAt := rfl
  have value : read.value = w.total := rfl
  injection next with next
  subst next
  refine ⟨⟨startAfter (w.state.seen (c.key scraper)) read, read.endAt, read.value, w.counts, w.restarts,
    (w.state.seen (c.key scraper)).isNone⟩, ⟨rfl, rfl, rfl⟩, rfl, ⟨rfl, rfl, rfl⟩, ?_, ?_, ?_, ?_⟩
  · intro latest head
    rw [head] at rises
    have below : latest.endAt < (c.point w.total timestampMs now).endAt := by simpa using rises
    exact below
  · intro absent
    simp only [absent]
    exact ⟨rfl, rfl⟩
  · intro s present
    simp only [present]
    exact ⟨rfl, rfl⟩
  · intro s present
    rcases @sweep_seen scraper now (c.key scraper) ⟨(judgeAll scraper c.target now w.state.seen
      (before.map name ++ read :: after.map name)).1, w.state.sweptAt⟩ with left | forgotten
    · obtain rfl := Option.some.inj (holds.symm.trans (left.symm.trans present))
      exact ⟨rfl, rfl⟩
    · cases forgotten.symm.trans present

theorem follows_of_scraped {r a : Reading} (kept : Kept scraper c w)
    (scraped : Scraped scraper c w t r) (head : w.log.head? = some a) : Follows r a := by
  have since := (kept.since a head).1
  have rises := scraped.rises a head
  obtain ⟨value, counts, restarts⟩ := scraped.reading
  refine ⟨by rw [restarts, counts, value]; exact since, rises, ?_⟩
  cases absent : w.state.seen (c.key scraper) with
  | none =>
    obtain ⟨fresh, startAt⟩ := scraped.fresh absent
    have apart : r.startAt ≠ a.startAt := by
      have order := (kept.each a (mem_of_head? head)).2
      omega
    exact iff_of_true (.inl apart) (.inl fresh)
  | some s =>
    obtain ⟨fresh, startAt⟩ := scraped.held s absent
    obtain ⟨a', head', level, begun⟩ := kept.held s absent
    obtain rfl := Option.some.inj (head.symm.trans head')
    rw [← value, level, begun] at startAt
    by_cases fell : r.value < a.value
    · exact iff_of_true (.inr fell) (.inr fell)
    · rw [if_neg fell] at startAt
      simp [startAt, fresh, fell]

theorem kept_scraped {r : Reading} (kept : Kept scraper c w)
    (scraped : Scraped scraper c w t r) : Kept scraper c t := by
  obtain ⟨total, counts, restarts⟩ := scraped.same
  obtain ⟨value, counts', restarts'⟩ := scraped.reading
  have log := scraped.log
  refine ⟨total ▸ kept.total, fun s held => ⟨r, by rw [log]; rfl, scraped.holds s held⟩, ?_, ?_, ?_⟩
  · intro latest head
    rw [log] at head
    cases head
    refine ⟨?_, by omega⟩
    unfold Since
    rw [if_pos (restarts.trans restarts'.symm), counts, counts', total, value]
    simp
  · rw [log, isChain_cons]
    exact ⟨fun a head => follows_of_scraped kept scraped head, kept.chain⟩
  · rw [log]
    intro x inside
    rcases mem_cons.mp inside with rfl | older
    · refine ⟨value ▸ kept.total, ?_⟩
      cases absent : w.state.seen (c.key scraper) with
      | none => exact (scraped.fresh absent).2.le
      | some s =>
        obtain ⟨a, head, -, begun⟩ := kept.held s absent
        have order := (kept.each a (mem_of_head? head)).2
        have rises := scraped.rises a head
        have startAt := (scraped.held s absent).2
        split at startAt <;> omega
    · exact kept.each x older

theorem kept_step {e : Event} (kept : Kept scraper c w) (next : step scraper c w e = some t) : Kept scraper c t := by
  cases e with
  | counts n =>
    simp only [step] at next
    split at next <;> rename_i more
    · cases next
      refine ⟨add_nonneg kept.total more, kept.held, fun r head => ?_, kept.chain, kept.each⟩
      obtain ⟨since, order⟩ := kept.since r head
      refine ⟨?_, order⟩
      unfold Since at since ⊢
      split at since <;> rename_i ran
      · rw [if_pos ran]
        constructor <;> linarith
      · rw [if_neg ran]
        simp only
        linarith
    · cases next
  | restarts =>
    cases next
    refine ⟨le_refl 0, kept.held, fun r head => ?_, kept.chain, kept.each⟩
    obtain ⟨since, order⟩ := kept.since r head
    have later : w.restarts + 1 ≠ r.restarts := by omega
    refine ⟨?_, by simp only; omega⟩
    have positive := (kept.each r (mem_of_head? head)).1
    unfold Since at since ⊢
    rw [if_neg later]
    split at since
    · linarith [since.1, since.2]
    · linarith [kept.total]
  | scraped before after timestampMs now =>
    obtain ⟨r, scraped⟩ := scraped_of_step next
    exact kept_scraped kept scraped
  | other target points now =>
    simp only [step] at next
    split at next <;> rename_i others
    · cases next
      exact ⟨kept.total, fun s held => kept.held s (seen_other others held), kept.since, kept.chain, kept.each⟩
    · cases next
  | forgets =>
    cases next
    exact ⟨kept.total, fun s held => (by cases held), kept.since, kept.chain, kept.each⟩

/-- A reading's increase is what happened since the one before it, but for a level that was forgotten
and the counts a restart took. -/
theorem Follows.gain {b a : Reading} (follows : Follows b a) :
    (if b.startAt ≠ a.startAt ∨ b.value < a.value then b.value else b.value - a.value) =
      b.counts - a.counts + b.excess a - b.lost a := by
  have since := follows.since
  rw [if_congr follows.starts rfl rfl]
  unfold Since at since
  unfold Reading.excess Reading.lost Reading.adds
  by_cases ran : b.restarts = a.restarts
  · rw [if_pos ran] at since ⊢
    obtain ⟨counts, above⟩ := since
    by_cases fresh : b.fresh = true
    · simp only [fresh, ran, true_or, and_self, if_true]
      linarith
    · simp only [fresh, not_lt.mpr above, Bool.false_eq_true, or_self, false_and, if_false]
      linarith
  · simp only [ran, and_false, if_false]
    ring

theorem Follows.lost_nonneg {b a : Reading} (follows : Follows b a) (level : 0 ≤ a.value) : 0 ≤ b.lost a := by
  have since := follows.since
  unfold Since at since
  unfold Reading.lost Reading.adds
  split
  · exact le_refl 0
  · rename_i ran
    rw [if_neg ran] at since
    split <;> linarith

variable {log : List Reading}

theorem gained_eq (chain : log.IsChain Follows) :
    gained log = happened log + sumOver Reading.excess log - sumOver Reading.lost log := by
  induction log with
  | nil => simp [gained, happened, sumOver]
  | cons b rest ih =>
    cases rest with
    | nil => simp [gained, happened, sumOver]
    | cons a older =>
      rw [isChain_cons_cons] at chain
      obtain ⟨follows, chain⟩ := chain
      have before := ih chain
      have step := follows.gain
      simp only [happened, gained, sumOver, head?_cons, Option.map_some, Option.getD_some,
        getLast?_cons_cons] at before ⊢
      linarith

theorem Kept.chain_lost {w : World} (kept : Kept scraper c w) : w.log.IsChain fun b a => 0 ≤ b.lost a := by
  refine kept.chain.imp_of_mem_imp fun b a _ inside follows => ?_
  exact follows.lost_nonneg (kept.each a inside).1

theorem sumOver_nonneg {f : Reading → Reading → ℚ} (each : log.IsChain fun b a => 0 ≤ f b a) : 0 ≤ sumOver f log := by
  induction log with
  | nil => exact le_refl 0
  | cons b rest ih =>
    cases rest with
    | nil => exact le_refl 0
    | cons a older =>
      rw [isChain_cons_cons] at each
      exact add_nonneg each.1 (ih each.2)

theorem sumOver_eq_zero {f : Reading → Reading → ℚ} (each : log.IsChain fun b a => f b a = 0) : sumOver f log = 0 := by
  induction log with
  | nil => rfl
  | cons b rest ih =>
    cases rest with
    | nil => rfl
    | cons a older =>
      rw [isChain_cons_cons] at each
      simp [sumOver, each.1, ih each.2]

theorem kept_of_reach {w : World} (run : Reach (step scraper c) anyStep .start w) : Kept scraper c w :=
  run.invariant (Kept scraper c)
    ⟨le_refl 0, fun s held => (by cases held), fun r head => (by cases head), .nil,
      fun r inside => (by cases inside)⟩
    fun _ _ _ kept _ next => kept_step kept next

/-- What is said of an increase: it counts nothing that did not happen, and all that did where the
target ran on and nothing was forgotten. -/
def Counts (scraper : Scraper) (c : Counter) (parse : String → Option ℚ) (measure : String)
    (log : List Reading) : Prop :=
  ∀ v, c.increase scraper parse measure log = .ok v →
    counted v ≤ happened log ∧ (Uninterrupted log → counted v = happened log)

/-- Over every run an increase counts what happened exactly when the levels that were forgotten of a
running target are no more than the counts its restarts took, or there are too many points to
answer. So it does while nothing is forgotten of a running target. -/
theorem counts_iff {parse : String → Option ℚ} {measure : String} {w : World}
    (run : Reach (step scraper c) anyStep .start w) : (Counts scraper c parse measure w.log ↔
        (w.log.length ≤ counterSampleCap → sumOver Reading.excess w.log ≤ sumOver Reading.lost w.log)) ∧
      ((w.log.IsChain fun b a => b.excess a = 0) → Counts scraper c parse measure w.log) := by
  have kept := kept_of_reach run
  have rising : w.log.Pairwise fun b a => a.endAt ≤ b.endAt := by
    have ordered : w.log.Pairwise fun b a => a.endAt < b.endAt :=
      (kept.chain.imp fun b a follows => follows.rises).pairwise
    exact ordered.imp le_of_lt
  obtain ⟨value, answered⟩ := @increase_eq scraper c parse measure w.log rising
  have sum := gained_eq kept.chain
  have untouched : Uninterrupted w.log →
      sumOver Reading.excess w.log = 0 ∧ sumOver Reading.lost w.log = 0 := fun calm =>
    ⟨sumOver_eq_zero (calm.imp fun b a same => by simp [Reading.excess, same.2]),
      sumOver_eq_zero (calm.imp fun b a same => by simp [Reading.lost, same.1])⟩
  have exactly : Counts scraper c parse measure w.log ↔
      (w.log.length ≤ counterSampleCap → sumOver Reading.excess w.log ≤ sumOver Reading.lost w.log) := by
    constructor
    · intro counts fits
      obtain ⟨v, found⟩ := answered.mpr fits
      have bound := (counts v found).1
      rw [value v found, sum] at bound
      linarith
    · intro bound v found
      have fits := bound (answered.mp ⟨v, found⟩)
      rw [value v found, sum]
      refine ⟨by linarith, fun calm => ?_⟩
      obtain ⟨excess, lost⟩ := untouched calm
      linarith
  refine ⟨exactly, fun remembered => exactly.mpr fun _ => ?_⟩
  rw [sumOver_eq_zero remembered]
  exact sumOver_nonneg (kept.chain_lost)

end

/-! A target that is read twice. -/

def hourly : Scraper := ⟨3600000, fun _ => "app:9000", fun _ => ""⟩

def requests : Counter := ⟨"http://app:9000/metrics", "requests", "requests_total", []⟩

def worth (log : List Reading) : Option ℚ :=
  (requests.increase hourly (fun _ => none) "requests_total" log).toOption.map counted

/-- The target restarts between two readings, and the collector holds what it read. -/
theorem restart_counts : ∃ w, Reach (step hourly requests) anyStep .start w ∧ worth w.log = some 7 ∧
    (Counts hourly requests (fun _ => none) "requests_total" w.log ↔
      (w.log.length ≤ counterSampleCap → sumOver Reading.excess w.log ≤ sumOver Reading.lost w.log)) := by
  have ran : (exec (guarded (step hourly requests) anyStep) .start
      [.counts 100, .scraped [] [] none 10, .counts 3, .restarts, .counts 7, .scraped [] [] none 20]).any
        (fun w => worth w.log = some 7) = true := by
    decide +kernel
  obtain ⟨w, run, found⟩ := Reach.of_exec_any ran
  exact ⟨w, run, of_decide_eq_true found, (counts_iff run).1⟩

/-- The collector restarts between two readings of a target that ran on: a hundred counts before the
first are counted again. -/
theorem forgotten_level_is_counted : ¬ ∀ w, Reach (step hourly requests) anyStep .start w →
    Counts hourly requests (fun _ => none) "requests_total" w.log := by
  intro always
  have ran : (exec (guarded (step hourly requests) anyStep) .start
      [.counts 100, .scraped [] [] none 10, .forgets, .counts 5, .scraped [] [] none 20]).any
        (fun w => worth w.log = some 105 ∧ happened w.log = 5) = true := by
    decide +kernel
  obtain ⟨w, run, found⟩ := Reach.of_exec_any ran
  obtain ⟨answer, true_counts⟩ := of_decide_eq_true found
  obtain ⟨v, given, value⟩ := Option.map_eq_some_iff.mp answer
  cases increase : requests.increase hourly (fun _ => none) "requests_total" w.log with
  | error e =>
    rw [increase] at given
    cases given
  | ok u =>
    rw [increase] at given
    obtain rfl : u = v := Option.some.inj given
    have bound := (always w run u increase).1
    rw [value, true_counts] at bound
    exact absurd bound (by decide)

section
variable {scraper : Scraper} {c : Counter} {w t : World}

/-- A point of a series beside the point before it: it ends later, does not fall while the start stays, and a new start
lies behind the point before. -/
structure Continues (b a : Reading) : Prop where
  later : a.endAt < b.endAt
  rises : b.startAt = a.startAt → a.value ≤ b.value
  begins : b.startAt ≠ a.startAt → a.endAt < b.startAt

theorem continues_of_scraped {r a : Reading} (kept : Kept scraper c w) (scraped : Scraped scraper c w t r)
    (head : w.log.head? = some a) : Continues r a := by
  have order := (kept.each a (mem_of_head? head)).2
  have later := scraped.rises a head
  cases absent : w.state.seen (c.key scraper) with
  | none =>
    have startAt := (scraped.fresh absent).2
    exact ⟨later, fun same => by omega, fun _ => startAt ▸ later⟩
  | some s =>
    have startAt := (scraped.held s absent).2
    obtain ⟨a', head', level, begun⟩ := kept.held s absent
    obtain rfl := Option.some.inj (head.symm.trans head')
    rw [← scraped.reading.1, level, begun] at startAt
    by_cases fell : r.value < a.value
    · rw [if_pos fell] at startAt
      exact ⟨later, fun same => by omega, fun _ => startAt ▸ later⟩
    · rw [if_neg fell] at startAt
      exact ⟨later, fun _ => not_lt.mp fell, fun moved => absurd startAt moved⟩

end

end TallyOwl.Scrape
