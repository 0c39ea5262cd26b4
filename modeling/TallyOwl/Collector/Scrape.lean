import TallyOwl.Collector.Series

/-! The outbound scrape (`scrape.rs`, `exposition.rs`): a target's totals as native points, each with
the start that tells a restart. A value is an exact number here. What a body parses to, the host of a
target and the text of a float are parameters. -/
namespace TallyOwl.Scrape
open Wire List

structure Sample where
  name : String
  labels : List Property
  value : ℚ
  timestampMs : Option Int

/-- A point of a scrape, with the total a reset is judged on. -/
structure Point where
  metricName : String
  metricKind : MetricKind
  startAt : Int
  endAt : Int
  labels : List Property
  value : ℚ

/-- The point of one sample of a counter family (`build_scalars`). Its start is its own moment. -/
def counterPoint (family : String) (sample : Sample) (now : Int) : Point :=
  let endAt := sample.timestampMs.getD now
  let name := if "_total".toList.isSuffixOf sample.name.toList then sample.name else family
  ⟨name, .counter, endAt, endAt, sample.labels, sample.value⟩

abbrev Key := String × String × String

structure Seen where
  value : ℚ
  startAt : Int
  seenAt : Int

/-- The last total of each series, and the start it is counting from. -/
structure State where
  seen : Key → Option Seen
  sweptAt : Int

def State.start : State := ⟨fun _ => none, 0⟩

structure Scraper where
  idleExpiryMs : Int
  instanceOf : String → String
  floatText : UInt64 → String

def nameTheProducer (host : String) (p : Point) : Point :=
  let renamed := p.labels.map fun label =>
    if label.key = "instance" then { label with key := "exported_instance" } else label
  { p with labels := renamed ++ [property "instance" (.text host) .collector] }

section
variable (scraper : Scraper) (target : String) (now : Int)

def keyOf (p : Point) : Key :=
  (target, p.metricName, seriesKeyOf scraper.floatText p.metricKind p.labels)

def remember (seen : Key → Option Seen) (key : Key) (held : Seen) : Key → Option Seen :=
  fun k => if k = key then some held else seen k

def judge (seen : Key → Option Seen) (p : Point) : (Key → Option Seen) × Point × Nat :=
  if p.metricKind = .gauge then (seen, p, 0)
  else
    let key := keyOf scraper target p
    match seen key with
    | none => (remember seen key ⟨p.value, p.startAt, now⟩, p, 0)
    | some held =>
        let startAt := if p.value < held.value then p.endAt else held.startAt
        (remember seen key ⟨p.value, startAt, now⟩, { p with startAt },
          if p.value < held.value then 1 else 0)

def judgeAll : (Key → Option Seen) → List Point → (Key → Option Seen) × List Point × Nat
  | seen, [] => (seen, [], 0)
  | seen, p :: rest =>
      let (seen₁, judged, reset) := judge scraper target now seen p
      let (seen₂, points, resets) := judgeAll seen₁ rest
      (seen₂, judged :: points, reset + resets)

def sweep (state : State) : State :=
  if scraper.idleExpiryMs / 4 ≤ now - state.sweptAt then
    ⟨fun k => (state.seen k).filter fun held => now - scraper.idleExpiryMs ≤ held.seenAt, now⟩
  else state

structure ScrapeResult where
  points : List Point
  resets : Nat

def normalize (state : State) (points : List Point) : State × ScrapeResult :=
  let named := points.map (nameTheProducer (scraper.instanceOf target))
  let (seen, judged, resets) := judgeAll scraper target now state.seen named
  (sweep scraper now ⟨seen, state.sweptAt⟩, ⟨judged, resets⟩)

end

section
variable {scraper : Scraper} {target : String} {now : Int} {seen : Key → Option Seen} {k : Key}

theorem judge_point (p : Point) :
    (judge scraper target now seen p).2.1 = { p with startAt := (judge scraper target now seen p).2.1.startAt } := by
  unfold judge
  split
  · rfl
  · simp only
    split <;> rfl

theorem judge_other {p : Point} (other : keyOf scraper target p ≠ k) :
    (judge scraper target now seen p).1 k = seen k := by
  unfold judge
  split
  · rfl
  · simp only
    split <;> simp [remember, Ne.symm other]

def startAfter (held : Option Seen) (p : Point) : Int :=
  match held with
  | none => p.startAt
  | some held => if p.value < held.value then p.endAt else held.startAt

theorem judge_own {p : Point} (kind : p.metricKind ≠ .gauge) (own : keyOf scraper target p = k) :
    (judge scraper target now seen p).1 k = some ⟨p.value, startAfter (seen k) p, now⟩ ∧
      (judge scraper target now seen p).2.1 = { p with startAt := startAfter (seen k) p } := by
  subst own
  unfold judge startAfter
  rw [if_neg kind]
  cases held : seen (keyOf scraper target p) <;> simp [held, remember]

theorem judgeAll_other {points : List Point} (others : ∀ p ∈ points, keyOf scraper target p ≠ k) :
    (judgeAll scraper target now seen points).1 k = seen k := by
  induction points generalizing seen with
  | nil => rfl
  | cons p rest ih =>
    simp only [judgeAll]
    rw [ih fun q inside => others q (mem_cons_of_mem p inside)]
    exact judge_other (others p mem_cons_self)

theorem judgeAll_append (first rest : List Point) : judgeAll scraper target now seen (first ++ rest) =
      ((judgeAll scraper target now (judgeAll scraper target now seen first).1 rest).1,
        (judgeAll scraper target now seen first).2.1 ++
          (judgeAll scraper target now (judgeAll scraper target now seen first).1 rest).2.1,
        (judgeAll scraper target now seen first).2.2 +
          (judgeAll scraper target now (judgeAll scraper target now seen first).1 rest).2.2) := by
  induction first generalizing seen with
  | nil => simp [judgeAll]
  | cons p first ih => simp [judgeAll, ih, add_assoc]

theorem keys_judgeAll (points : List Point) : (judgeAll scraper target now seen points).2.1.map (keyOf scraper target) =
      points.map (keyOf scraper target) := by
  induction points generalizing seen with
  | nil => rfl
  | cons p rest ih =>
    simp only [judgeAll, map_cons, ih]
    rw [judge_point]
    rfl

theorem filter_judgeAll_other {points : List Point} (others : ∀ p ∈ points, keyOf scraper target p ≠ k) :
    ((judgeAll scraper target now seen points).2.1.filter fun p => keyOf scraper target p = k) = [] := by
  rw [filter_eq_nil_iff]
  intro q made same
  have key : keyOf scraper target q ∈ points.map (keyOf scraper target) := by
    rw [← @keys_judgeAll scraper target now seen]
    exact mem_map_of_mem made
  obtain ⟨p, inside, agree⟩ := mem_map.mp key
  exact others p inside (agree.trans (by simpa using same))

theorem judgeAll_one {before after : List Point} {p : Point} (kind : p.metricKind ≠ .gauge)
    (own : keyOf scraper target p = k) (first : ∀ q ∈ before, keyOf scraper target q ≠ k)
    (last : ∀ q ∈ after, keyOf scraper target q ≠ k) : (judgeAll scraper target now seen (before ++ p :: after)).1 k =
        some ⟨p.value, startAfter (seen k) p, now⟩ ∧
      ((judgeAll scraper target now seen (before ++ p :: after)).2.1.filter fun q =>
        keyOf scraper target q = k) = [{ p with startAt := startAfter (seen k) p }] := by
  obtain ⟨state, point⟩ := @judge_own scraper target now (judgeAll scraper target now seen before).1 k p kind own
  rw [judgeAll_other first] at state point
  rw [judgeAll_append]
  simp only [judgeAll]
  refine ⟨(judgeAll_other last).trans state, ?_⟩
  have stays : keyOf scraper target { p with startAt := startAfter (seen k) p } = k := own
  rw [filter_append, filter_judgeAll_other first, nil_append, point, filter_cons,
    if_pos (by simpa using stays), filter_judgeAll_other last]

theorem sweep_seen (state : State) :
    (sweep scraper now state).seen k = state.seen k ∨ (sweep scraper now state).seen k = none := by
  unfold sweep
  split
  · cases kept : (state.seen k).filter fun held => now - scraper.idleExpiryMs ≤ held.seenAt with
    | none => exact .inr kept
    | some held => exact .inl (kept.trans (Option.filter_eq_some_iff.mp kept).1.symm)
  · exact .inl rfl

end

end TallyOwl.Scrape
