import Mathlib.Algebra.Order.Ring.Int

/-! A line cut into numbered tiles. Each tile begins where the one before it ends, so the number of the tile that a
point lies in and the points where tiles begin determine one another. -/
namespace TallyOwl.Lib

structure Tiling where
  index : Int → Int
  start : Int → Int
  grows : ∀ q, start q < start (q + 1)
  around : ∀ t, start (index t) ≤ t ∧ t < start (index t + 1)

namespace Tiling
variable (tiling : Tiling) {t q r : Int}

theorem start_mono (le : q ≤ r) : tiling.start q ≤ tiling.start r := by
  induction r, le using Int.leInduction with
  | base => exact le_rfl
  | succ r _ ih => exact ih.trans (tiling.grows r).le

/-- A tile begins no later than a point if and only if its number is no larger than that of the point's tile. -/
theorem start_le_iff : tiling.start q ≤ t ↔ q ≤ tiling.index t := by
  obtain ⟨low, high⟩ := tiling.around t
  constructor
  · intro begun
    by_contra later
    exact absurd (high.trans_le (tiling.start_mono (not_le.mp later))) (not_lt.mpr begun)
  · exact fun le => (tiling.start_mono le).trans low

theorem index_eq_iff : tiling.index t = q ↔ tiling.start q ≤ t ∧ t < tiling.start (q + 1) := by
  rw [← not_le, tiling.start_le_iff, tiling.start_le_iff]
  omega

@[simp] theorem index_start (q : Int) : tiling.index (tiling.start q) = q :=
  tiling.index_eq_iff.mpr ⟨le_rfl, tiling.grows q⟩

def even (width shift : Int) (positive : 0 < width) : Tiling where
  index t := (t + shift) / width
  start q := q * width - shift
  grows q := by
    rw [add_mul, one_mul]
    omega
  around t := by
    have rest := Int.ediv_mul_add_emod (t + shift) width
    have low := Int.emod_nonneg (t + shift) positive.ne'
    have high := Int.emod_lt_of_pos (t + shift) positive
    rw [add_mul, one_mul]
    omega

def under (coarse fine : Tiling) : Tiling where
  index t := coarse.index (fine.index t)
  start q := fine.start (coarse.start q)
  grows q := (fine.grows _).trans_le (fine.start_mono (coarse.grows q))
  around t := by
    obtain ⟨low, high⟩ := coarse.around (fine.index t)
    rw [← not_le, fine.start_le_iff, fine.start_le_iff]
    exact ⟨low, not_le.mpr high⟩

end Tiling

/-- The first day of a year that begins in March, in days since 0000-03-01. -/
def marchStart (year : Int) : Int := 365 * year + year / 4 - year / 100 + year / 400

/-- The March year of a day: whole cycles of 400, 100 and 4 years, and years. -/
def marchYear (day : Int) : Int :=
  let inCycle := day % 146097
  let century := min (inCycle / 36524) 3
  let inCentury := inCycle - century * 36524
  let inFour := inCentury % 1461
  day / 146097 * 400 + century * 100 + inCentury / 1461 * 4 + min (inFour / 365) 3

theorem marchStart_parts {cycle century four year : Int} (centuries : 0 ≤ century ∧ century ≤ 3)
    (fours : 0 ≤ four ∧ four ≤ 24) (years : 0 ≤ year ∧ year ≤ 3) :
    marchStart (cycle * 400 + century * 100 + four * 4 + year) =
      cycle * 146097 + century * 36524 + four * 1461 + year * 365 := by
  have quarter : (cycle * 400 + century * 100 + four * 4 + year) / 4 = cycle * 100 + century * 25 + four := by omega
  have hundredth : (cycle * 400 + century * 100 + four * 4 + year) / 100 = cycle * 4 + century := by omega
  have cycles : (cycle * 400 + century * 100 + four * 4 + year) / 400 = cycle := by omega
  rw [marchStart, quarter, hundredth, cycles]
  omega

theorem marchStart_next (year : Int) : marchStart (year + 1) = marchStart year + 365 +
    (if (year + 1) % 4 = 0 ∧ ((year + 1) % 100 ≠ 0 ∨ (year + 1) % 400 = 0) then 1 else 0) := by
  unfold marchStart
  split <;> omega

theorem marchYear_bounds (day : Int) : marchStart (marchYear day) ≤ day ∧ day < marchStart (marchYear day + 1) := by
  rw [marchStart_next]
  set inCycle := day % 146097 with cycleIs
  set century := min (inCycle / 36524) 3 with centuryIs
  set inCentury := inCycle - century * 36524 with inCenturyIs
  set inFour := inCentury % 1461 with inFourIs
  have parts : marchYear day = day / 146097 * 400 + century * 100 + inCentury / 1461 * 4 + min (inFour / 365) 3 := rfl
  have fours : 0 ≤ inCentury / 1461 ∧ inCentury / 1461 ≤ 24 := by omega
  have years : 0 ≤ min (inFour / 365) 3 ∧ min (inFour / 365) 3 ≤ 3 := by omega
  rw [parts, marchStart_parts (by omega) fours years]
  split
  · omega
  · omega

/-- The months since the first of year 0, and the first day of each in days since 1970-01-01. In a year that begins
in March the months' lengths follow one rule. -/
def monthStart (month : Int) : Int := marchStart ((month - 2) / 12) + (153 * ((month - 2) % 12) + 2) / 5 - 719468

def monthIndex (day : Int) : Int :=
  let year := marchYear (day + 719468)
  12 * year + (5 * (day + 719468 - marchStart year) + 2) / 153 + 2

theorem monthStart_next (month : Int) :
    monthStart month < monthStart (month + 1) ∧ monthStart (month + 1) ≤ monthStart month + 31 := by
  unfold monthStart
  rcases eq_or_ne ((month - 2) % 12) 11 with last | other
  · have year : (month + 1 - 2) / 12 = (month - 2) / 12 + 1 := by omega
    have first : (month + 1 - 2) % 12 = 0 := by omega
    rw [year, first, last, marchStart_next]
    split <;> omega
  · have year : (month + 1 - 2) / 12 = (month - 2) / 12 := by omega
    have next : (month + 1 - 2) % 12 = (month - 2) % 12 + 1 := by omega
    rw [year, next]
    omega

theorem monthIndex_bounds (day : Int) : monthStart (monthIndex day) ≤ day ∧ day < monthStart (monthIndex day + 1) := by
  obtain ⟨low, high⟩ := marchYear_bounds (day + 719468)
  have length := marchStart_next (marchYear (day + 719468))
  set year := marchYear (day + 719468) with yearIs
  set month := (5 * (day + 719468 - marchStart year) + 2) / 153 with monthIs
  have index : monthIndex day = 12 * year + month + 2 := rfl
  have months : 0 ≤ month ∧ month ≤ 11 := by
    split at length <;> omega
  have within : (12 * year + month + 2 - 2) / 12 = year := by omega
  have here : (12 * year + month + 2 - 2) % 12 = month := by omega
  rw [index, monthStart, monthStart, within, here]
  constructor
  · omega
  · rcases eq_or_ne month 11 with last | other
    · have next : (12 * year + month + 2 + 1 - 2) / 12 = year + 1 := by omega
      have first : (12 * year + month + 2 + 1 - 2) % 12 = 0 := by omega
      rw [next, first]
      omega
    · have same : (12 * year + month + 2 + 1 - 2) / 12 = year := by omega
      have next : (12 * year + month + 2 + 1 - 2) % 12 = month + 1 := by omega
      rw [same, next]
      omega

def months : Tiling where
  index := monthIndex
  start := monthStart
  grows month := (monthStart_next month).1
  around := monthIndex_bounds
end TallyOwl.Lib
