import TallyOwl.Lib.Tiling

/-! Calendar periods in a timezone (`calendar.rs`). The zone database is a clock: the offset at each instant, and the
instants at which a local time is shown. Instants and local times are milliseconds, the latter read as if they were
UTC; `none` stands for the panic of a date that leaves the representable range. -/
namespace TallyOwl.Calendar
open Lib

inductive CalendarUnit where
  | hour | day | week | month
  deriving DecidableEq

/-- `chrono::offset::LocalResult`. -/
inductive LocalResult where
  | single (at' : Int)
  | ambiguous (earlier later : Int)
  | none
  deriving DecidableEq

def LocalResult.candidates : LocalResult → List Int
  | .single at' => [at']
  | .ambiguous earlier later => [earlier, later]
  | .none => []

/-- A zone of the database. A local time is shown at its candidates and nowhere else, the earlier one first, and no
zone has been eighteen hours from UTC. -/
structure Zone where
  offset : Int → Int
  fromLocal : Int → LocalResult
  shown : ∀ l t, t + offset t = l ↔ t ∈ (fromLocal l).candidates
  ordered : ∀ l earlier later, fromLocal l = .ambiguous earlier later → earlier < later
  near : ∀ t, -64800000 < offset t ∧ offset t < 64800000

/-- What chrono can represent, from the first day of year -262143 to the last of 262142. -/
def Representable (ms : Int) : Prop := -8334601228800000 ≤ ms ∧ ms ≤ 8210266876799999

instance (ms : Int) : Decidable (Representable ms) := inferInstanceAs (Decidable (_ ∧ _))

def naive (ms : Int) : Option Int := if Representable ms then some ms else none

def saturate (n : Int) : Int := max (-2 ^ 63) (min n (2 ^ 63 - 1))

/-! Local dates and times. -/

def dayOf (l : Int) : Int := l / 86400000

def midnight (day : Int) : Int := day * 86400000

def minute (l : Int) : Int := l / 60000 % 60

def second (l : Int) : Int := l / 1000 % 60

def subsecMillis (l : Int) : Int := l % 1000

def daysFromMonday (l : Int) : Int := (dayOf l + 3) % 7

def yearOf (l : Int) : Int := months.index (dayOf l) / 12

def monthOf (l : Int) : Int := months.index (dayOf l) % 12 + 1

/-- `NaiveDate::from_ymd_opt` of the first of a month, at midnight. -/
def firstOfMonth (year month : Int) : Option Int := naive (midnight (months.start (year * 12 + (month - 1))))

namespace Zone
variable (zone : Zone)

def localOf (t : Int) : Option Int :=
  let t := if Representable t then t else 0
  naive (t + zone.offset t)

def walk (l : Int) : Nat → Int → Option Int
  | 0, _ => some l
  | steps + 1, walked => do
      let walked ← naive (walked + 60000)
      match zone.fromLocal walked with
      | .single t => some t
      | _ => walk l steps walked

def instant (l : Int) : Option Int :=
  match zone.fromLocal l with
  | .single t => some t
  | .ambiguous earlier _ => some earlier
  | .none => zone.walk l (6 * 60) l

def startOf (t : Int) (unit : CalendarUnit) : Option Int := do
  let l ← zone.localOf t
  match unit with
  | .hour => some (saturate (t - (minute l * 60000 + second l * 1000 + subsecMillis l)))
  | .day => zone.instant (midnight (dayOf l))
  | .week => do
      let floored ← naive (midnight (dayOf l - daysFromMonday l))
      zone.instant floored
  | .month =>
      match firstOfMonth (yearOf l) (monthOf l) with
      | some floored => zone.instant floored
      | none => some t

/-- So many calendar periods after the start of the one an instant falls in. -/
def advance (t : Int) (unit : CalendarUnit) (count : Int) : Option Int := do
  let start ← zone.startOf t unit
  if count = 0 then some start
  else
    match unit with
    | .hour => some (saturate (start + saturate (count * 3600000)))
    | .day => do
        let moved ← naive ((← zone.localOf start) + count * 86400000)
        zone.instant moved
    | .week => do
        let moved ← naive ((← zone.localOf start) + count * 604800000)
        zone.instant moved
    | .month => do
        let l ← zone.localOf start
        let months := yearOf l * 12 + (monthOf l - 1) + count
        match firstOfMonth (months / 12) (months % 12 + 1) with
        | some moved => zone.instant moved
        | none => some start

def periodsBetween (begun t : Int) (unit : CalendarUnit) : Option Int := do
  let begun ← zone.localOf (← zone.startOf begun unit)
  let ended ← zone.localOf (← zone.startOf t unit)
  match unit with
  | .month => some ((yearOf ended * 12 + monthOf ended) - (yearOf begun * 12 + monthOf begun))
  | .day => some (dayOf ended - dayOf begun)
  | .week => some ((dayOf ended - dayOf begun).tdiv 7)
  | .hour => some ((ended - begun).tdiv 3600000)

end Zone

/-! The periods of the local time. -/

def days : Tiling := .even 86400000 0 (by decide)

def weeks : Tiling := .even 7 3 (by decide)

def period : CalendarUnit → Tiling
  | .hour => .even 3600000 0 (by decide)
  | .day => days
  | .week => weeks.under days
  | .month => months.under days

section
variable {unit : CalendarUnit}

theorem days_start (q : Int) : days.start q = midnight q := Int.sub_zero _

theorem days_index (l : Int) : days.index l = dayOf l := by
  change (l + 0) / 86400000 = _
  rw [Int.add_zero, dayOf]

theorem period_length (days' : unit ≠ .hour) (q : Int) : (period unit).start q + 86400000 ≤ (period unit).start (q + 1) ∧
    (period unit).start (q + 1) ≤ (period unit).start q + 2678400000 := by
  cases unit with
  | hour => exact (days' rfl).elim
  | day =>
    simp only [period, days_start, midnight]
    omega
  | week =>
    simp only [period, Tiling.under, days_start, midnight, weeks, Tiling.even]
    omega
  | month =>
    have length := monthStart_next q
    simp only [period, Tiling.under, days_start, midnight, months]
    omega

end

/-! The instant that stands for a local time. -/

section
variable (zone : Zone) {l t u : Int}

def Zone.wall (t : Int) : Int := t + zone.offset t

def Zone.ShowsOnce (l t : Int) : Prop := ∀ u, zone.wall u = l ↔ u = t

/-- The instant that stands for a local time: the first at which the clock shows it; where the clock skips it, the one
that shows the first whole minute after it, of six hours, that is shown once; where there is none, the local time read
as UTC. -/
inductive Zone.Names (l : Int) : Int → Prop
  | shown {t : Int} (here : zone.wall t = l) (first : ∀ u, zone.wall u = l → t ≤ u) : Names l t
  | skipped {t : Int} {k : Nat} (never : ∀ u, zone.wall u ≠ l) (some' : 1 ≤ k ∧ k ≤ 360)
      (once : zone.ShowsOnce (l + k * 60000) t)
      (first : ∀ j : Nat, 1 ≤ j → j < k → ∀ u, ¬ zone.ShowsOnce (l + j * 60000) u) : Names l t
  | lost (never : ∀ u, zone.wall u ≠ l) (none' : ∀ j : Nat, 1 ≤ j → j ≤ 360 → ∀ u, ¬ zone.ShowsOnce (l + j * 60000) u) :
      Names l l

theorem single_iff : zone.fromLocal l = .single t ↔ zone.ShowsOnce l t := by
  constructor
  · intro is u
    rw [Zone.wall, zone.shown, is]
    simp [LocalResult.candidates]
  · intro once
    have inside := fun u => (zone.shown l u).symm.trans (once u)
    cases is : zone.fromLocal l with
    | single other =>
      rw [is] at inside
      rw [(inside other).mp (by simp [LocalResult.candidates])]
    | ambiguous earlier later =>
      have order := zone.ordered l earlier later is
      rw [is] at inside
      have first := (inside earlier).mp (by simp [LocalResult.candidates])
      have second := (inside later).mp (by simp [LocalResult.candidates])
      omega
    | none =>
      rw [is] at inside
      cases (inside t).mpr rfl

theorem walk_spec (steps : Nat) {walked : Int} (low : Representable walked)
    (high : Representable (walked + steps * 60000)) : ∃ t, zone.walk l steps walked = some t ∧
      ((∃ k : Nat, (1 ≤ k ∧ k ≤ steps) ∧ zone.ShowsOnce (walked + k * 60000) t ∧
          ∀ j : Nat, 1 ≤ j → j < k → ∀ u, ¬ zone.ShowsOnce (walked + j * 60000) u) ∨
        t = l ∧ ∀ j : Nat, 1 ≤ j → j ≤ steps → ∀ u, ¬ zone.ShowsOnce (walked + j * 60000) u) := by
  induction steps generalizing walked with
  | zero => exact ⟨l, rfl, .inr ⟨rfl, fun j some' none' => absurd (some'.trans none') (by decide)⟩⟩
  | succ steps ih =>
    have inside : Representable (walked + 60000) := by
      unfold Representable at low high ⊢
      push_cast at high
      omega
    have step : zone.walk l (steps + 1) walked =
        match zone.fromLocal (walked + 60000) with
        | .single t => some t
        | _ => zone.walk l steps (walked + 60000) := by
      rw [Zone.walk, naive, if_pos inside]
      rfl
    by_cases found : ∃ t, zone.fromLocal (walked + 60000) = .single t
    · obtain ⟨t, single⟩ := found
      refine ⟨t, by rw [step, single], .inl ⟨1, ⟨le_rfl, by omega⟩, ?_, fun j some' few => by omega⟩⟩
      simpa using (single_iff zone).mp single
    · have missed : zone.walk l (steps + 1) walked = zone.walk l steps (walked + 60000) := by
        rw [step]
        split
        · rename_i t single
          exact (found ⟨t, single⟩).elim
        · rfl
      have next : ∀ j : Nat, walked + 60000 + j * 60000 = walked + (j + 1 : Nat) * 60000 := by
        intro j
        push_cast
        omega
      have before : ∀ j : Nat, 1 ≤ j → (∀ i : Nat, 1 ≤ i → i < j → ∀ u, ¬ zone.ShowsOnce (walked + (i + 1 : Nat) * 60000) u) →
          ∀ i : Nat, 1 ≤ i → i < j + 1 → ∀ u, ¬ zone.ShowsOnce (walked + i * 60000) u := by
        intro j _ later i some' few u once
        obtain ⟨i, rfl⟩ := Nat.exists_eq_add_of_le' some'
        rcases Nat.eq_zero_or_pos i with rfl | positive
        · exact found ⟨u, (single_iff zone).mpr (by simpa using once)⟩
        · exact later i positive (by omega) u once
      obtain ⟨t, result, outcome⟩ := ih inside (by rw [next]; exact high)
      simp only [next] at outcome
      refine ⟨t, missed.trans result, ?_⟩
      rcases outcome with ⟨k, ⟨some', few⟩, once, first⟩ | ⟨rfl, none'⟩
      · exact .inl ⟨k + 1, ⟨by omega, by omega⟩, once, before k some' first⟩
      · refine .inr ⟨rfl, fun i some' few => ?_⟩
        exact before (steps + 1) (by omega) (fun j some' few => none' j some' (by omega)) i some' (by omega)

def SixHours (l : Int) : Prop := Representable l ∧ Representable (l + 21600000)

theorem instant_names (inside : SixHours l) : ∃ t, zone.instant l = some t ∧ zone.Names l t := by
  unfold Zone.instant
  cases is : zone.fromLocal l with
  | single t =>
    have once := (single_iff zone).mp is
    exact ⟨t, rfl, .shown ((once t).mpr rfl) fun u here => ((once u).mp here).ge⟩
  | ambiguous earlier later =>
    have order := zone.ordered l earlier later is
    have inside : ∀ u, zone.wall u = l ↔ u = earlier ∨ u = later := by
      intro u
      rw [Zone.wall, zone.shown, is]
      simp [LocalResult.candidates]
    refine ⟨earlier, rfl, .shown ((inside earlier).mpr (.inl rfl)) fun u here => ?_⟩
    rcases (inside u).mp here with rfl | rfl
    · exact le_rfl
    · exact order.le
  | none =>
    have never : ∀ u, zone.wall u ≠ l := by
      intro u here
      rw [Zone.wall, zone.shown, is] at here
      cases here
    obtain ⟨t, result, ⟨k, few, once, first⟩ | ⟨rfl, none'⟩⟩ := walk_spec zone (6 * 60) inside.1 inside.2
    · exact ⟨t, result, .skipped never few once first⟩
    · exact ⟨l, result, .lost never none'⟩

theorem Zone.Names.unique (left : zone.Names l t) (right : zone.Names l u) : t = u := by
  cases left with
  | shown here first =>
    cases right with
    | shown here' first' => exact le_antisymm (first _ here') (first' _ here)
    | skipped never => exact (never _ here).elim
    | lost never => exact (never _ here).elim
  | @skipped _ k never some' once first =>
    cases right with
    | shown here' => exact (never _ here').elim
    | @skipped _ k' _ some'' once' first' =>
      rcases lt_trichotomy k k' with less | rfl | more
      · exact (first' k some'.1 less _ once).elim
      · exact (once' _).mp ((once _).mpr rfl)
      · exact (first k' some''.1 more _ once').elim
    | lost _ none' => exact (none' k some'.1 some'.2 _ once).elim
  | lost never none' =>
    cases right with
    | shown here' => exact (never _ here').elim
    | @skipped _ k' _ some'' once' => exact (none' k' some''.1 some''.2 _ once').elim
    | lost => rfl

theorem instant_eq (inside : SixHours l) : zone.instant l = some t ↔ zone.Names l t := by
  obtain ⟨u, result, named⟩ := instant_names zone inside
  rw [result, Option.some.injEq]
  exact ⟨fun is => is ▸ named, fun other => named.unique zone other⟩

theorem Zone.Names.near (named : zone.Names l t) : l - 64800000 < t ∧ t < l + 86400000 := by
  have offset := zone.near t
  cases named with
  | shown here =>
    unfold Zone.wall at here
    omega
  | skipped _ some' once =>
    have here := (once t).mpr rfl
    unfold Zone.wall at here
    omega
  | lost => omega

theorem Zone.Names.wall_near (named : zone.Names l t) : l ≤ zone.wall t ∧ zone.wall t ≤ l + 21600000 ∨ t = l := by
  cases named with
  | shown here => exact .inl (by omega)
  | skipped _ some' once =>
    have here := (once t).mpr rfl
    exact .inl (by omega)
  | lost => exact .inr rfl

end

section
variable {zone : Zone} {unit : CalendarUnit} {q t s : Int}

def Zone.periodOf (zone : Zone) (unit : CalendarUnit) (t : Int) : Int := (period unit).index (zone.wall t)

/-- The instant that stands for a period's first midnight, where it lies in the period. -/
structure Begins (zone : Zone) (unit : CalendarUnit) (q s : Int) : Prop where
  named : zone.Names ((period unit).start q) s
  inside : zone.periodOf unit s = q

theorem Begins.within (begins : Begins zone unit q s) :
    (period unit).start q ≤ zone.wall s ∧ zone.wall s < (period unit).start q + 86400000 := by
  have low := ((period unit).around (zone.wall s)).1
  have inside : (period unit).index (zone.wall s) = q := begins.inside
  rw [inside] at low
  refine ⟨low, ?_⟩
  rcases begins.named.wall_near with near | lost
  · omega
  · have offset := zone.near s
    unfold Zone.wall
    omega

theorem begins_of_fixed (days' : unit ≠ .hour) (named : zone.Names ((period unit).start q) s)
    (fixed : zone.Names ((period unit).start (zone.periodOf unit s)) s) : zone.periodOf unit s = q := by
  have offset := zone.near s
  have here : zone.wall s = s + zone.offset s := rfl
  have length := period_length days' q
  have before := period_length days' (q - 1)
  rw [sub_add_cancel] at before
  rcases named.wall_near with near | lost
  · exact (period unit).index_eq_iff.mpr ⟨near.1, by omega⟩
  · by_cases ahead : 0 ≤ zone.offset s
    · exact (period unit).index_eq_iff.mpr ⟨by omega, by omega⟩
    · -- the instant lies in the period before, far from its midnight
      have earlier : zone.periodOf unit s = q - 1 :=
        (period unit).index_eq_iff.mpr ⟨by omega, by rw [sub_add_cancel]; omega⟩
      rw [earlier] at fixed
      rcases fixed.wall_near with near | lost'
      · omega
      · omega

def Reach (span ms : Int) : Prop :=
  -8334601228800000 + span * 86400000 ≤ ms ∧ ms ≤ 8210266876799999 - span * 86400000

instance (span ms : Int) : Decidable (Reach span ms) := inferInstanceAs (Decidable (_ ∧ _))

theorem Reach.weaken {span less ms : Int} (reach : Reach span ms) (le : less ≤ span) : Reach less ms := by
  unfold Reach at reach ⊢
  omega

theorem Reach.representable {span ms : Int} (reach : Reach span ms) (positive : 0 ≤ span) : Representable ms := by
  unfold Reach at reach
  unfold Representable
  omega

theorem localOf_eq (reach : Reach 40 t) : zone.localOf t = some (zone.wall t) := by
  have offset := zone.near t
  have inside : Representable t := reach.representable (by decide)
  have inside' : Representable (t + zone.offset t) := by
    unfold Reach at reach
    unfold Representable
    omega
  rw [Zone.localOf, if_pos inside]
  exact if_pos inside'

theorem floored_eq {l : Int} (days' : unit ≠ .hour) (reach : Reach 39 l) :
    SixHours ((period unit).start ((period unit).index l)) := by
  have length := (period_length days' ((period unit).index l)).2
  have around := (period unit).around l
  unfold Reach at reach
  unfold SixHours Representable
  omega

theorem startOf_iff (days' : unit ≠ .hour) (reach : Reach 40 t) :
    zone.startOf t unit = some s ↔ zone.Names ((period unit).start (zone.periodOf unit t)) s := by
  have offset := zone.near t
  have close : Reach 39 (zone.wall t) := by
    unfold Reach at reach ⊢
    unfold Zone.wall
    omega
  have inside : SixHours ((period unit).start (zone.periodOf unit t)) := floored_eq days' close
  rw [← instant_eq zone inside, Zone.startOf, localOf_eq reach, Option.bind_eq_bind, Option.bind_some]
  cases unit with
  | hour => exact (days' rfl).elim
  | day =>
    have floored : (period .day).start (zone.periodOf .day t) = midnight (dayOf (zone.wall t)) := by
      rw [← days_index, ← days_start]
      rfl
    rw [floored]
  | week =>
    have floored : (period .week).start (zone.periodOf .week t) =
        midnight (dayOf (zone.wall t) - daysFromMonday (zone.wall t)) := by
      simp only [period, Zone.periodOf, Tiling.under, days_index, days_start, weeks, Tiling.even, daysFromMonday]
      congr 1
      omega
    rw [floored] at inside ⊢
    simp only [naive, if_pos inside.1, Option.bind_some]
  | month =>
    have floored : (period .month).start (zone.periodOf .month t) = midnight (months.start
        (yearOf (zone.wall t) * 12 + (monthOf (zone.wall t) - 1))) := by
      simp only [period, Zone.periodOf, Tiling.under, days_index, days_start, yearOf, monthOf]
      congr 2
      omega
    rw [floored] at inside ⊢
    simp only [firstOfMonth, naive, if_pos inside.1]

theorem Begins.fixed (days' : unit ≠ .hour) (begins : Begins zone unit q s) (reach : Reach 40 s) :
    zone.startOf s unit = some s := by
  rw [startOf_iff days' reach, begins.inside]
  exact begins.named

theorem Begins.of_fixed (days' : unit ≠ .hour) (reach : Reach 40 s) (fixed : zone.startOf s unit = some s) :
    Begins zone unit (zone.periodOf unit s) s :=
  ⟨(startOf_iff days' reach).mp fixed, rfl⟩

/-- The local time to which so many periods lead from the start of one. Days and weeks keep the time of day. -/
def Zone.landing (zone : Zone) (unit : CalendarUnit) (q n s : Int) : Int :=
  (period unit).start (q + n) + if unit = .month then 0 else zone.wall s - (period unit).start q

theorem landing_near {n : Int} (begins : Begins zone unit q s) : (period unit).start (q + n) ≤ zone.landing unit q n s ∧
      zone.landing unit q n s < (period unit).start (q + n) + 86400000 := by
  have within := begins.within
  unfold Zone.landing
  split <;> omega

theorem advance_eq {n : Int} (days' : unit ≠ .hour) (begins : Begins zone unit q s) (reach : Reach 40 s)
    (reach' : Reach 40 ((period unit).start (q + n))) (moves : n ≠ 0) :
    zone.advance s unit n = zone.instant (zone.landing unit q n s) := by
  have near := @landing_near zone unit q s n begins
  have inside : Representable (zone.landing unit q n s) := by
    unfold Reach at reach'
    unfold Representable
    omega
  have here : (period unit).index (zone.wall s) = q := begins.inside
  rw [Zone.advance, begins.fixed days' reach, Option.bind_eq_bind, Option.bind_some, if_neg moves]
  cases unit with
  | hour => exact (days' rfl).elim
  | day =>
    have moved : zone.wall s + n * 86400000 = zone.landing .day q n s := by
      simp only [Zone.landing, period, days_start, midnight, if_neg (show CalendarUnit.day ≠ .month by decide)]
      rw [add_mul]
      omega
    simp only [localOf_eq reach, Option.bind_some, moved, naive, if_pos inside]
  | week =>
    have moved : zone.wall s + n * 604800000 = zone.landing .week q n s := by
      simp only [Zone.landing, period, Tiling.under, days_start, midnight, weeks, Tiling.even,
        if_neg (show CalendarUnit.week ≠ .month by decide)]
      omega
    simp only [localOf_eq reach, Option.bind_some, moved, naive, if_pos inside]
  | month =>
    have index : yearOf (zone.wall s) * 12 + (monthOf (zone.wall s) - 1) = q := by
      rw [yearOf, monthOf, ← days_index, ← here]
      simp only [period, Tiling.under]
      omega
    have moved : midnight (months.start ((q + n) / 12 * 12 + ((q + n) % 12 + 1 - 1))) = zone.landing .month q n s := by
      simp only [Zone.landing, period, Tiling.under, days_start, if_true, Int.add_zero]
      congr 2
      omega
    simp only [localOf_eq reach, Option.bind_some, index, firstOfMonth, moved, naive, if_pos inside]

theorem periodsBetween_eq {r moved : Int} (days' : unit ≠ .hour) (begins : Begins zone unit q s)
    (begins' : Begins zone unit r moved) (reach : Reach 40 s) (reach' : Reach 40 moved) :
    zone.periodsBetween s moved unit = some (r - q) := by
  have within := begins.within
  have within' := begins'.within
  have here : (period unit).index (zone.wall s) = q := begins.inside
  have there : (period unit).index (zone.wall moved) = r := begins'.inside
  rw [Zone.periodsBetween, begins.fixed days' reach, begins'.fixed days' reach']
  simp only [Option.bind_eq_bind, Option.bind_some, localOf_eq reach, localOf_eq reach']
  cases unit with
  | hour => exact (days' rfl).elim
  | day =>
    rw [← here, ← there]
    simp only [period, days_index]
  | week =>
    simp only [period, Tiling.under, days_start, midnight, weeks, Tiling.even] at within within'
    have first : dayOf (zone.wall s) = q * 7 - 3 := by
      unfold dayOf
      omega
    have second : dayOf (zone.wall moved) = r * 7 - 3 := by
      unfold dayOf
      omega
    have apart : dayOf (zone.wall moved) - dayOf (zone.wall s) = (r - q) * 7 := by omega
    simp only [apart, Int.mul_tdiv_cancel _ (show (7 : Int) ≠ 0 by decide)]
  | month =>
    rw [← here, ← there]
    simp only [period, Tiling.under, days_index, yearOf, monthOf, Option.some.injEq]
    omega

end

section
variable {zone : Zone} {unit : CalendarUnit} {t n : Int}

/-- The start of a period is no later than an instant in it and starts itself, and so many periods on from it is the
start of a period that is counted as so many away. -/
def StepsOnStarts (zone : Zone) (unit : CalendarUnit) (t n : Int) : Prop :=
  ∃ start moved, zone.startOf t unit = some start ∧ start ≤ t ∧ zone.startOf start unit = some start ∧
    zone.advance start unit n = some moved ∧ zone.startOf moved unit = some moved ∧
    zone.periodsBetween start moved unit = some n

/-- The instant and the period so many on are inside what can be represented. -/
def Supported (zone : Zone) (unit : CalendarUnit) (t n : Int) : Prop :=
  Reach 80 t ∧ Reach 80 (if unit = .hour then t + n * 3600000 else (period unit).start (zone.periodOf unit t + n))

instance (zone : Zone) (unit : CalendarUnit) (t n : Int) : Decidable (Supported zone unit t n) :=
  inferInstanceAs (Decidable (_ ∧ _))

/-- The period has begun, and the one so many on begins at the instant that stands for the landing. -/
def DayLands (zone : Zone) (unit : CalendarUnit) (t n : Int) : Prop :=
  ∃ s, Begins zone unit (zone.periodOf unit t) s ∧ s ≤ t ∧ (n = 0 ∨ ∃ moved,
    Begins zone unit (zone.periodOf unit t + n) moved ∧
      zone.Names (zone.landing unit (zone.periodOf unit t) n s) moved)

theorem startOf_reach {s : Int} (days' : unit ≠ .hour) (reach : Reach 80 t)
    (named : zone.Names ((period unit).start (zone.periodOf unit t)) s) : Reach 40 s := by
  have length := (period_length days' (zone.periodOf unit t)).2
  have around := (period unit).around (zone.wall t)
  have here : (period unit).index (zone.wall t) = zone.periodOf unit t := rfl
  rw [here] at around
  have offset := zone.near t
  have wall : zone.wall t = t + zone.offset t := rfl
  have near := named.near
  unfold Reach at reach ⊢
  omega

theorem days_iff (days' : unit ≠ .hour) (supported : Supported zone unit t n) :
    StepsOnStarts zone unit t n ↔ DayLands zone unit t n := by
  obtain ⟨reach, reach'⟩ := supported
  rw [if_neg days'] at reach'
  set q := zone.periodOf unit t with qIs
  have reach40 : Reach 40 t := reach.weaken (by decide)
  have landed : Reach 40 ((period unit).start (q + n)) := reach'.weaken (by decide)
  have inside : ∀ s, Begins zone unit q s → SixHours (zone.landing unit q n s) := by
    intro s begins
    have near := @landing_near zone unit q s n begins
    unfold Reach at reach'
    unfold SixHours Representable
    omega
  have moved_reach : ∀ s moved, Begins zone unit q s → zone.Names (zone.landing unit q n s) moved → Reach 40 moved := by
    intro s moved begins named
    have near := @landing_near zone unit q s n begins
    have near' := named.near
    unfold Reach at reach' ⊢
    omega
  constructor
  · rintro ⟨s, moved, started, before, fixed, advanced, own, counted⟩
    have named := (startOf_iff days' reach40).mp started
    have reachS := startOf_reach days' reach named
    have begins : Begins zone unit q s :=
      ⟨named, begins_of_fixed days' named ((startOf_iff days' reachS).mp fixed)⟩
    refine ⟨s, begins, before, ?_⟩
    by_cases still : n = 0
    · exact .inl still
    · rw [advance_eq days' begins reachS landed still, instant_eq zone (inside s begins)] at advanced
      have reachM := moved_reach s moved begins advanced
      have begins' := Begins.of_fixed days' reachM own
      rw [periodsBetween_eq days' begins begins' reachS reachM] at counted
      have number : zone.periodOf unit moved = q + n := by
        have difference := Option.some.inj counted
        omega
      rw [number] at begins'
      exact .inr ⟨moved, begins', advanced⟩
  · rintro ⟨s, begins, before, step⟩
    have reachS := startOf_reach days' reach begins.named
    have started := (startOf_iff days' reach40).mpr begins.named
    have fixed := begins.fixed days' reachS
    by_cases still : n = 0
    · subst still
      refine ⟨s, s, started, before, fixed, ?_, fixed, ?_⟩
      · rw [Zone.advance, fixed]
        rfl
      · rw [periodsBetween_eq days' begins begins reachS reachS, sub_self]
    · obtain ⟨moved, begins', named⟩ := step.resolve_left still
      have reachM := moved_reach s moved begins named
      refine ⟨s, moved, started, before, fixed, ?_, begins'.fixed days' reachM, ?_⟩
      · rw [advance_eq days' begins reachS landed still, instant_eq zone (inside s begins)]
        exact named
      · rw [periodsBetween_eq days' begins begins' reachS reachM, add_sub_cancel_left]

/-- The zone's offset is the same at the start of the hour, but for whole hours, and the same so many hours on. -/
def HourLands (zone : Zone) (t n : Int) : Prop :=
  let start := t - zone.wall t % 3600000
  (zone.offset start - zone.offset t) % 3600000 = 0 ∧ zone.offset (start + n * 3600000) = zone.offset start

def Lands (zone : Zone) (unit : CalendarUnit) (t n : Int) : Prop :=
  if unit = .hour then HourLands zone t n else DayLands zone unit t n

theorem saturate_eq {m : Int} (reach : Reach 0 m) : saturate m = m := by
  unfold Reach at reach
  unfold saturate
  omega

theorem startOf_hour (reach : Reach 40 t) : zone.startOf t .hour = some (t - zone.wall t % 3600000) := by
  have inHour : minute (zone.wall t) * 60000 + second (zone.wall t) * 1000 + subsecMillis (zone.wall t) =
      zone.wall t % 3600000 := by
    unfold minute second subsecMillis
    omega
  have inside : Reach 0 (t - zone.wall t % 3600000) := by
    unfold Reach at reach ⊢
    omega
  rw [Zone.startOf, localOf_eq reach, Option.bind_eq_bind, Option.bind_some, inHour]
  exact congrArg some (saturate_eq inside)

theorem hour_fixed (reach : Reach 40 t) : zone.startOf t .hour = some t ↔ zone.wall t % 3600000 = 0 := by
  rw [startOf_hour reach, Option.some.injEq]
  omega

theorem hours_iff (supported : Supported zone .hour t n) : StepsOnStarts zone .hour t n ↔ HourLands zone t n := by
  obtain ⟨reach, reach'⟩ := supported
  rw [if_pos rfl] at reach'
  have reach40 : Reach 40 t := reach.weaken (by decide)
  unfold HourLands
  dsimp only
  set start := t - zone.wall t % 3600000 with startIs
  set moved := start + n * 3600000 with movedIs
  have reachS : Reach 40 start := by
    unfold Reach at reach ⊢
    omega
  have reachM : Reach 40 moved := by
    unfold Reach at reach' ⊢
    omega
  have wallT : zone.wall t = t + zone.offset t := rfl
  have wallS : zone.wall start = start + zone.offset start := rfl
  have wallM : zone.wall moved = moved + zone.offset moved := rfl
  have advanced : zone.startOf start .hour = some start → zone.advance start .hour n = some moved := by
    intro fixed
    have hours : Reach 0 moved := reachM.weaken (by decide)
    have span : saturate (n * 3600000) = n * 3600000 := by
      unfold Reach at reach reach'
      unfold saturate
      omega
    rw [Zone.advance, fixed, Option.bind_eq_bind, Option.bind_some]
    split
    · rename_i still
      rw [movedIs, still, Int.zero_mul, Int.add_zero]
    · dsimp only
      rw [span, ← movedIs, saturate_eq hours]
  have counted : zone.startOf start .hour = some start → zone.startOf moved .hour = some moved →
      zone.periodsBetween start moved .hour = some ((zone.wall moved - zone.wall start).tdiv 3600000) := by
    intro fixed own
    rw [Zone.periodsBetween, fixed, own]
    simp only [Option.bind_eq_bind, Option.bind_some, localOf_eq reachS, localOf_eq reachM]
  constructor
  · rintro ⟨s, m, started, -, fixed, moves, own, count⟩
    obtain rfl := Option.some.inj ((startOf_hour reach40).symm.trans started)
    obtain rfl := Option.some.inj ((advanced fixed).symm.trans moves)
    have first := (hour_fixed reachS).mp fixed
    have second := (hour_fixed reachM).mp own
    have number := Option.some.inj ((counted fixed own).symm.trans count)
    have whole : zone.wall moved - zone.wall start = (zone.wall moved - zone.wall start) / 3600000 * 3600000 := by omega
    rw [whole, Int.mul_tdiv_cancel _ (show (3600000 : Int) ≠ 0 by decide)] at number
    constructor
    · omega
    · omega
  · rintro ⟨aligned, same⟩
    have first : zone.wall start % 3600000 = 0 := by omega
    have second : zone.wall moved % 3600000 = 0 := by omega
    have fixed := (hour_fixed reachS).mpr first
    have own := (hour_fixed reachM).mpr second
    have apart : zone.wall moved - zone.wall start = n * 3600000 := by omega
    refine ⟨start, moved, startOf_hour reach40, by omega, fixed, advanced fixed, own, ?_⟩
    rw [counted fixed own, apart, Int.mul_tdiv_cancel _ (show (3600000 : Int) ≠ 0 by decide)]

end

section
variable {zone : Zone} {unit : CalendarUnit} {t t' : Int}

def KeepsOrder (zone : Zone) (unit : CalendarUnit) (t t' : Int) : Prop :=
  ∃ s s', zone.startOf t unit = some s ∧ zone.startOf t' unit = some s' ∧ s ≤ s'

def Opens (zone : Zone) (unit : CalendarUnit) (q s : Int) : Prop :=
  Begins zone unit q s ∧ ∀ u, zone.periodOf unit u = q → s ≤ u

def Open (zone : Zone) (unit : CalendarUnit) (t t' : Int) : Prop :=
  unit = .hour ∨ (∃ s, Opens zone unit (zone.periodOf unit t) s) ∧ ∃ s, Opens zone unit (zone.periodOf unit t') s

/-- The clock's periods come in the order of the instants: nothing of the later one's is shown before all of the earlier
one's. For hours, the instants are an hour apart, or the zone's offset changes by whole hours between them, or the
time past the hour, the time between and the change make a full hour. -/
def InOrder (zone : Zone) (unit : CalendarUnit) (t t' : Int) : Prop :=
  if unit = .hour then
    3600000 ≤ t' - t ∨ (zone.offset t' - zone.offset t) % 3600000 = 0 ∨
      3600000 ≤ zone.wall t % 3600000 + (t' - t) + (zone.offset t' - zone.offset t) % 3600000
  else ∀ u', zone.periodOf unit u' = zone.periodOf unit t' → ∃ u ≤ u', zone.periodOf unit u = zone.periodOf unit t

theorem order_iff (le : t ≤ t') (reach : Reach 80 t) (reach' : Reach 80 t') (opened : Open zone unit t t') :
    KeepsOrder zone unit t t' ↔ InOrder zone unit t t' := by
  have close : Reach 40 t := reach.weaken (by decide)
  have close' : Reach 40 t' := reach'.weaken (by decide)
  unfold KeepsOrder InOrder
  by_cases hour : unit = .hour
  · subst hour
    have wall : zone.wall t = t + zone.offset t := rfl
    have wall' : zone.wall t' = t' + zone.offset t' := rfl
    rw [if_pos rfl, startOf_hour close, startOf_hour close']
    constructor
    · rintro ⟨s, s', first, second, order⟩
      cases first
      cases second
      omega
    · intro order
      exact ⟨_, _, rfl, rfl, by omega⟩
  · obtain ⟨⟨s, begins, first⟩, s', begins', first'⟩ := opened.resolve_left hour
    rw [if_neg hour, (startOf_iff hour close).mpr begins.named, (startOf_iff hour close').mpr begins'.named]
    constructor
    · rintro ⟨_, _, rfl', rfl'', order⟩ u' inside
      cases rfl'
      cases rfl''
      exact ⟨s, order.trans (first' u' inside), begins.inside⟩
    · intro order
      obtain ⟨u, before, inside⟩ := order s' begins'.inside
      exact ⟨s, s', rfl, rfl, (first u inside).trans before⟩

end

/-- A zone whose clock is put forward by an hour at 04:00 UTC on 2026-09-06, from midnight. -/
def santiago : Zone where
  offset t := if t < 1788667200000 then -14400000 else -10800000
  fromLocal l :=
    if l + 14400000 < 1788667200000 then .single (l + 14400000)
    else if 1788667200000 ≤ l + 10800000 then .single (l + 10800000)
    else .none
  shown l t := by
    split <;> split <;> try split
    all_goals simp only [LocalResult.candidates, List.mem_singleton, List.not_mem_nil, iff_false]
    all_goals omega
  ordered l earlier later is := by
    split at is
    · cases is
    · split at is <;> cases is
  near t := by
    split <;> decide

theorem calendar_steps_iff {zone : Zone} {unit : CalendarUnit} {t n : Int} (supported : Supported zone unit t n) :
    (StepsOnStarts zone unit t n ↔ Lands zone unit t n) ∧ ∀ t', t ≤ t' → Reach 80 t' → Open zone unit t t' →
      (KeepsOrder zone unit t t' ↔ InOrder zone unit t t') := by
  refine ⟨?_, fun t' le reach' opened => order_iff le supported.1 reach' opened⟩
  unfold Lands
  by_cases hour : unit = .hour
  · subst hour
    rw [if_pos rfl]
    exact hours_iff supported
  · rw [if_neg hour]
    exact days_iff hour supported

theorem calendar_steps_iff_santiago :
    (StepsOnStarts santiago .day 1788696000000 1 ↔ Lands santiago .day 1788696000000 1) ∧
      ∀ t', 1788696000000 ≤ t' → Reach 80 t' → Open santiago .day 1788696000000 t' →
        (KeepsOrder santiago .day 1788696000000 t' ↔ InOrder santiago .day 1788696000000 t') :=
  calendar_steps_iff (by decide +kernel)

/-- The day after the one whose midnight is skipped is found at its 01:00. -/
theorem skipped_midnight_carried : ¬ ∀ (zone : Zone) (unit : CalendarUnit) (t n : Int), Supported zone unit t n →
    StepsOnStarts zone unit t n := by
  intro all
  obtain ⟨start, moved, started, -, -, advanced, own, -⟩ := all santiago .day 1788696000000 1 (by decide +kernel)
  have first : santiago.startOf 1788696000000 .day = some 1788667200000 := by decide +kernel
  have second : santiago.advance 1788667200000 .day 1 = some 1788753600000 := by decide +kernel
  have third : santiago.startOf 1788753600000 .day = some 1788750000000 := by decide +kernel
  obtain rfl := Option.some.inj (first.symm.trans started)
  obtain rfl := Option.some.inj (second.symm.trans advanced)
  cases third.symm.trans own

end TallyOwl.Calendar
