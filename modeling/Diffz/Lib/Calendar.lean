import Mathlib.Algebra.BigOperators.Intervals
import Mathlib.Algebra.Order.BigOperators.Group.Finset
import Mathlib.Tactic.IntervalCases

/-!
# The Gregorian calendar

Years, months and days are counted from one, with no year left out. The number of a date is how many
days lie between the first day of some year and it, years and months before it counted one by one.
Later dates have larger numbers (`Date.daysFrom_lt`); years are counted in closed form by
`yearsLength_eq`.
-/

set_option autoImplicit false

namespace Diffz
namespace Calendar

def isLeap (y : Nat) : Prop := (y % 4 = 0 ∧ y % 100 ≠ 0) ∨ y % 400 = 0

instance (y : Nat) : Decidable (isLeap y) := inferInstanceAs (Decidable (_ ∨ _))

def yearLength (y : Nat) : Nat := if isLeap y then 366 else 365

def monthLength (y m : Nat) : Nat :=
  if m = 2 then if isLeap y then 29 else 28
  else if m = 4 ∨ m = 6 ∨ m = 9 ∨ m = 11 then 30
  else 31

/-- The days of the months before a month. -/
def monthsLength (y m : Nat) : Nat := ∑ j ∈ Finset.Ico 1 m, monthLength y j

/-- The days of the years from `e` on that are before a year. -/
def yearsLength (e y : Nat) : Nat := ∑ k ∈ Finset.Ico e y, yearLength k

structure Date where
  year : Nat
  month : Nat
  day : Nat
deriving DecidableEq, Repr

namespace Date

structure Valid (d : Date) : Prop where
  month : 1 ≤ d.month ∧ d.month ≤ 12
  day : 1 ≤ d.day ∧ d.day ≤ monthLength d.year d.month

/-- The number of a date, with the first day of the year `e` as zero. -/
def daysFrom (e : Nat) (d : Date) : Nat :=
  yearsLength e d.year + monthsLength d.year d.month + (d.day - 1)

def Before (a b : Date) : Prop :=
  a.year < b.year ∨
    a.year = b.year ∧ (a.month < b.month ∨ a.month = b.month ∧ a.day < b.day)

theorem before_trichotomy (a b : Date) : a.Before b ∨ a = b ∨ b.Before a := by
  obtain ⟨y, m, d⟩ := a
  obtain ⟨y', m', d'⟩ := b
  simp only [Before, Date.mk.injEq]
  omega

end Date

/-! ## Months -/

theorem monthsLength_succ (y : Nat) {m : Nat} (hm : 1 ≤ m) :
    monthsLength y (m + 1) = monthsLength y m + monthLength y m :=
  Finset.sum_Ico_succ_top hm _

theorem monthsLength_mono (y : Nat) {m m' : Nat} (h : m ≤ m') :
    monthsLength y m ≤ monthsLength y m' :=
  Finset.sum_le_sum_of_subset (Finset.Ico_subset_Ico_right h)

theorem monthsLength_year (y : Nat) : monthsLength y 13 = yearLength y := by
  unfold monthsLength yearLength
  simp only [Nat.reduceLeDiff, Finset.sum_Ico_succ_top, Finset.Ico_self, Finset.sum_empty,
    monthLength, Nat.reduceEqDiff, or_false, or_true, if_true, if_false]
  split <;> rfl

theorem monthsLength_one (y : Nat) : monthsLength y 1 = 0 := rfl

theorem monthsLength_two (y : Nat) : monthsLength y 2 = 31 := rfl

/-- From March on the lengths repeat every five months, 153 days. -/
theorem monthsLength_march (y : Nat) {k : Nat} (hk : k ≤ 9) :
    monthsLength y (k + 3) + 306 = yearLength y + (153 * k + 2) / 5 := by
  unfold monthsLength yearLength
  interval_cases k
  all_goals
    simp only [Nat.reduceAdd, Nat.reduceLeDiff, Finset.sum_Ico_succ_top, Finset.Ico_self,
      Finset.sum_empty, monthLength, Nat.reduceEqDiff, or_false, or_true,
      if_true, if_false]
    split <;> rfl

/-! ## Years -/

theorem yearsLength_succ {e y : Nat} (h : e ≤ y) :
    yearsLength e (y + 1) = yearsLength e y + yearLength y :=
  Finset.sum_Ico_succ_top h _

theorem yearsLength_mono (e : Nat) {y y' : Nat} (h : y ≤ y') :
    yearsLength e y ≤ yearsLength e y' :=
  Finset.sum_le_sum_of_subset (Finset.Ico_subset_Ico_right h)

/-- The leap years before a year. -/
def leapsBefore (y : Nat) : Nat := (y + 3) / 4 - (y + 99) / 100 + (y + 399) / 400

theorem leapsBefore_succ (y : Nat) :
    leapsBefore (y + 1) + 365 = leapsBefore y + yearLength y := by
  unfold leapsBefore yearLength
  by_cases hleap : isLeap y
  · rw [if_pos hleap]
    unfold isLeap at hleap
    omega
  · rw [if_neg hleap]
    unfold isLeap at hleap
    omega

theorem yearsLength_eq {e y : Nat} (h : e ≤ y) :
    yearsLength e y + (365 * e + leapsBefore e) = 365 * y + leapsBefore y := by
  induction y, h using Nat.le_induction with
  | base =>
    unfold yearsLength
    rw [Finset.Ico_self, Finset.sum_empty, Nat.zero_add]
  | succ y h ih =>
    have hleap := leapsBefore_succ y
    rw [yearsLength_succ h]
    omega

/-! ## Order -/

namespace Date

variable {a b : Date} {e : Nat}

/-- The days before a date in its year are fewer than the days of the months up to its own. -/
theorem Valid.lt_months (h : a.Valid) :
    monthsLength a.year a.month + (a.day - 1) < monthsLength a.year (a.month + 1) := by
  have hday := h.day
  rw [monthsLength_succ a.year h.month.1]
  omega

theorem Valid.lt_year (h : a.Valid) :
    monthsLength a.year a.month + (a.day - 1) < yearLength a.year := by
  have hmonths := h.lt_months
  have hyear := monthsLength_mono a.year (Nat.add_le_add_right h.month.2 1)
  rw [monthsLength_year] at hyear
  omega

/-- Later dates have larger numbers. -/
theorem daysFrom_lt (ha : a.Valid) (he : e ≤ a.year) (h : a.Before b) :
    a.daysFrom e < b.daysFrom e := by
  unfold daysFrom
  rcases h with hyear | ⟨hyear, hmonth | ⟨hmonth, hday⟩⟩
  · have hlt := ha.lt_year
    have hsucc := yearsLength_succ he
    have hmono := yearsLength_mono e (Nat.add_one_le_of_lt hyear)
    omega
  · have hlt := ha.lt_months
    have hmono := monthsLength_mono a.year (Nat.add_one_le_of_lt hmonth)
    rw [← hyear]
    omega
  · have hday' := ha.day
    rw [← hyear, ← hmonth]
    omega

theorem before_of_daysFrom_lt (hb : b.Valid) (he : e ≤ b.year)
    (h : a.daysFrom e < b.daysFrom e) : a.Before b := by
  rcases before_trichotomy a b with hab | rfl | hba
  · exact hab
  · omega
  · have hlt := daysFrom_lt hb he hba
    omega

end Date
end Calendar
end Diffz
