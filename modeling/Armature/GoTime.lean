import Mathlib.Algebra.Order.Group.Int
import Mathlib.Algebra.Order.Group.Abs
/-!
# GoTime — instants, zones and dates, as Go's `time` keeps them

An instant is its nanoseconds since the zero `time.Time`, midnight of Monday 1 January of year 1 in UTC; a local reading
is the same count taken off a zone's clock, and a date is its number of days from that Monday.  A `time.Duration` holds
292 years: where dates further apart are subtracted, it stops there, and the subtraction says so.
-/
namespace Armature
namespace Go

def second : Int := 1000000000
def minute : Int := 60 * second
def day : Int := 86400 * second

theorem day_pos : 0 < day := by decide

/-! ## Dates -/

inductive Weekday where
  | monday | tuesday | wednesday | thursday | friday | saturday | sunday
  deriving DecidableEq

def weekday (d : Int) : Weekday :=
  match (d % 7).toNat with
  | 0 => .monday | 1 => .tuesday | 2 => .wednesday | 3 => .thursday | 4 => .friday | 5 => .saturday | _ => .sunday

structure Civil where
  year : Int
  month : Int
  day : Int
  deriving DecidableEq

def dayOfMarch (y m d : Int) : Int := 365 * y + y / 4 - y / 100 + y / 400 + (153 * m + 2) / 5 + (d - 1) - 306

def dayOfCivil (c : Civil) : Int :=
  let year := c.year + (c.month - 1) / 12
  let month := (c.month - 1) % 12 + 1
  if month ≤ 2 then dayOfMarch (year - 1) (month + 9) c.day else dayOfMarch year (month - 3) c.day

def civilOfDay (d : Int) : Civil :=
  let era := (d + 306) / 146097
  let doe := (d + 306) % 146097
  let century := min (doe / 36524) 3
  let four := (doe - 36524 * century) / 1461
  let dof := (doe - 36524 * century) % 1461
  let year := min (dof / 365) 3
  let doy := dof - 365 * year
  let m := (5 * doy + 2) / 153
  let y := 400 * era + 100 * century + 4 * four + year
  let d := doy - (153 * m + 2) / 5 + 1
  if m < 10 then ⟨y, m + 3, d⟩ else ⟨y + 1, m - 9, d⟩

theorem dayOfCivil_spring (y d : Int) {m : Int} (h : 0 ≤ m ∧ m < 10) :
    dayOfCivil ⟨y, m + 3, d⟩ = dayOfMarch y m d := by
  have h1 : (m + 3 - 1) / 12 = 0 := by omega
  have h2 : (m + 3 - 1) % 12 + 1 = m + 3 := by omega
  have h3 : y + 0 = y ∧ m + 3 - 3 = m := by omega
  unfold dayOfCivil
  simp only [h1, h2]
  rw [if_neg (by omega), h3.1, h3.2]

theorem dayOfCivil_winter (y d : Int) {m : Int} (h : 10 ≤ m ∧ m < 12) :
    dayOfCivil ⟨y + 1, m - 9, d⟩ = dayOfMarch y m d := by
  have h1 : (m - 9 - 1) / 12 = 0 := by omega
  have h2 : (m - 9 - 1) % 12 + 1 = m - 9 := by omega
  have h3 : y + 1 + 0 - 1 = y ∧ m - 9 + 9 = m := by omega
  unfold dayOfCivil
  simp only [h1, h2]
  rw [if_pos (by omega), h3.1, h3.2]

theorem dayOfCivil_civilOfDay (d : Int) : dayOfCivil (civilOfDay d) = d := by
  unfold civilOfDay
  dsimp only
  generalize hera : (d + 306) / 146097 = era
  generalize hdoe : (d + 306) % 146097 = doe
  generalize hc : min (doe / 36524) 3 = century
  generalize hf : (doe - 36524 * century) / 1461 = four
  generalize hdof : (doe - 36524 * century) % 1461 = dof
  generalize hy : min (dof / 365) 3 = year
  have hc0 : 0 ≤ century ∧ century ≤ 3 ∧ 0 ≤ doe - 36524 * century ∧ doe - 36524 * century ≤ 36524 := by omega
  have hf0 : 0 ≤ four ∧ four ≤ 24 ∧ 0 ≤ dof ∧ dof ≤ 1460 := by omega
  have hy0 : 0 ≤ year ∧ year ≤ 3 ∧ 0 ≤ dof - 365 * year ∧ dof - 365 * year ≤ 365 := by omega
  have hd : d = 146097 * era + 36524 * century + 1461 * four + dof - 306 := by omega
  clear hera hdoe hc hf hdof hy
  generalize hm : (5 * (dof - 365 * year) + 2) / 153 = m
  have hm0 : 0 ≤ m ∧ m ≤ 11 := by omega
  generalize hY : 400 * era + 100 * century + 4 * four + year = y
  have h4 : y / 4 = 100 * era + 25 * century + four := by omega
  have h100 : y / 100 = 4 * era + century := by omega
  have h400 : y / 400 = era := by omega
  have hday : dayOfMarch y m (dof - 365 * year - (153 * m + 2) / 5 + 1) = d := by
    unfold dayOfMarch
    omega
  split
  · rw [dayOfCivil_spring y _ ⟨hm0.1, by assumption⟩, hday]
  · rw [dayOfCivil_winter y _ ⟨by omega, by omega⟩, hday]

theorem dayOfCivil_add_day (y m d n : Int) : dayOfCivil ⟨y, m, d + n⟩ = dayOfCivil ⟨y, m, d⟩ + n := by
  unfold dayOfCivil dayOfMarch
  dsimp only
  split <;> omega

example : civilOfDay 0 = ⟨1, 1, 1⟩ ∧ civilOfDay (-307) = ⟨0, 2, 29⟩ := by decide

theorem civilOfDay_day (d : Int) : 1 ≤ (civilOfDay d).day ∧ (civilOfDay d).day ≤ 31 := by
  unfold civilOfDay
  dsimp only
  split <;> dsimp only <;> omega

def daysIn (year month : Int) : Int := dayOfCivil ⟨year, month + 1, 1⟩ - dayOfCivil ⟨year, month, 1⟩

theorem leap_up (y : Int) : y / 4 - y / 100 + y / 400 ≤ (y + 1) / 4 - (y + 1) / 100 + (y + 1) / 400 := by omega

theorem daysIn_long (year month : Int) : 28 ≤ daysIn year month := by
  unfold daysIn dayOfCivil
  dsimp only
  have hsplit : month = 12 * ((month - 1) / 12) + (month - 1) % 12 + 1 := by omega
  generalize hq : (month - 1) / 12 = q at hsplit ⊢
  generalize hr : (month - 1) % 12 = r at hsplit ⊢
  have hbound : 0 ≤ r ∧ r < 12 := by omega
  -- December ends a year of the calendar, February one that begins in March.
  by_cases hdecember : r = 11
  · have h1 : (month + 1 - 1) / 12 = q + 1 := by omega
    have h2 : (month + 1 - 1) % 12 = 0 := by omega
    have h3 : year + (q + 1) - 1 = year + q := by omega
    rw [h1, h2, hdecember, if_pos (by omega), if_neg (by omega), h3]
    unfold dayOfMarch
    omega
  · have h1 : (month + 1 - 1) / 12 = q := by omega
    have h2 : (month + 1 - 1) % 12 = r + 1 := by omega
    rw [h1, h2]
    by_cases hfebruary : r = 1
    · have hup := leap_up (year + q - 1)
      have h3 : year + q - 1 + 1 = year + q := by omega
      rw [h3] at hup
      rw [hfebruary, if_neg (by omega), if_pos (by omega)]
      unfold dayOfMarch
      omega
    · split <;> split
      all_goals first | omega | (unfold dayOfMarch; omega)

/-! ## Zones -/

structure Zone where
  offset : Int → Int
  date : Int → Int
  bound : Int
  offset_le : ∀ t, |offset t| ≤ bound
  date_shown : ∀ t, date (t + offset t) + offset (date (t + offset t)) = t + offset t
  date_skipped : ∀ l, (∀ t, t + offset t ≠ l) → ∃ t, t + offset (t - 1) ≤ l ∧ l < t + offset t ∧
    (date l = l - offset (t - 1) ∨ date l = l - offset t)

namespace Zone

def read (z : Zone) (t : Int) : Int := t + z.offset t

def dayOf (z : Zone) (t : Int) : Int := z.read t / day

theorem date_near (z : Zone) (l : Int) : l - z.bound ≤ z.date l ∧ z.date l ≤ l + z.bound := by
  have hoff : ∀ t, -z.bound ≤ z.offset t ∧ z.offset t ≤ z.bound := fun t => abs_le.1 (z.offset_le t)
  by_cases hl : ∃ t, t + z.offset t = l
  · obtain ⟨t, rfl⟩ := hl
    have hshown := z.date_shown t
    have := hoff (z.date (t + z.offset t))
    omega
  · obtain ⟨t, -, -, hd | hd⟩ := z.date_skipped l fun t he => hl ⟨t, he⟩
    · have := hoff (t - 1)
      omega
    · have := hoff t
      omega

def midnight (z : Zone) (d : Int) : Int := z.date (d * day)

def addDate (z : Zone) (t : Int) (years months days : Int) : Int :=
  let c := civilOfDay (z.dayOf t)
  z.date (dayOfCivil ⟨c.year + years, c.month + months, c.day + days⟩ * day + z.read t % day)

theorem addDate_days (z : Zone) (t : Int) (n : Int) : z.addDate t 0 0 n = z.date (z.read t + n * day) := by
  unfold addDate
  dsimp only
  rw [Int.add_zero, Int.add_zero, dayOfCivil_add_day, dayOfCivil_civilOfDay]
  congr 1
  have := Int.mul_ediv_add_emod (z.read t) day
  unfold dayOf
  rw [Int.add_mul, Int.mul_comm (z.read t / day)]
  omega

def fixed (o : Int) : Zone where
  offset _ := o
  date l := l - o
  bound := |o|
  offset_le _ := Int.le_refl _
  date_shown _ := by omega
  date_skipped l h := absurd (Int.sub_add_cancel l o) (h (l - o))

def utc : Zone := fixed 0

theorem one_of_two_le (t o₁ o₂ u : Int) : |if u < t then o₁ else o₂| ≤ max |o₁| |o₂| := by
  split
  · exact le_max_left _ _
  · exact le_max_right _ _

def forward (t : Int) (o₁ o₂ : Int) (h : o₁ < o₂) : Zone where
  offset u := if u < t then o₁ else o₂
  date l := if l < t + o₁ then l - o₁ else l - o₂
  bound := max |o₁| |o₂|
  offset_le := one_of_two_le t o₁ o₂
  date_shown u := by grind
  date_skipped l hl := by
    refine ⟨t, ?_, ?_, ?_⟩
    all_goals
      have h1 := hl (l - o₁)
      have h2 := hl (l - o₂)
      grind

end Zone

def Zone.Fixed (z : Zone) : Prop := ∃ o, ∀ t, z.offset t = o

theorem Zone.Fixed.date {z : Zone} {o : Int} (h : ∀ t, z.offset t = o) (l : Int) : z.date l = l - o := by
  have := z.date_shown (l - o)
  simp only [h, Int.sub_add_cancel] at this
  omega

end Go
end Armature
