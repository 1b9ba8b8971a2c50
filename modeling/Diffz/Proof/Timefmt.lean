import Diffz.Core.Timefmt
import Diffz.Lib.Calendar

/-!
# Dates are right

A day is placed in its era of 400 years by centuries, groups of four years, years and days, which
is what the divisions compute (`Place`). Years begin in March there, so that a leap day is the last
of its year, and the month is found by one more division (`dateOf`). Against the calendar, counted
one year and one month after the other, the result has the number it was computed from.
-/

set_option autoImplicit false

namespace Diffz
namespace Proof
namespace Timefmt

open Calendar Diffz.Timefmt

/-! ## Checked operations -/

theorem add_eq {a b : Nat} (h : a + b < u64Size) : add a b = some (a + b) := if_pos h

theorem mul_eq {a b : Nat} (h : a * b < u64Size) : mul a b = some (a * b) := if_pos h

theorem sub_eq {a b : Nat} (h : b ≤ a) : sub a b = some (a - b) := if_pos h

theorem bind_eq_some {α β : Type} {x : Option α} {f : α → Option β} {a : α} {b : β}
    (hx : x = some a) (hf : f a = some b) : (x >>= f) = some b := by
  rw [hx]
  exact hf

/-! ## The era -/

/-- A day of an era: `q` centuries, `r` groups of four years, `s` years and `t` days. Only a leap
year has a day 365. -/
structure Place (q r s t : Nat) : Prop where
  century : q < 4
  group : r < 25
  year : s < 4
  day : t < 365 ∨ t = 365 ∧ s = 3 ∧ (r < 24 ∨ q = 3)

def dayOfEra (q r s t : Nat) : Nat := 36524 * q + 1461 * r + 365 * s + t

def yearOfEra (q r s : Nat) : Nat := 100 * q + 4 * r + s

theorem exists_place {doe : Nat} (h : doe < 146097) :
    ∃ q r s t, Place q r s t ∧ doe = dayOfEra q r s t := by
  -- The last century, and the last year of four, are a day longer.
  obtain ⟨q, d, hq, hd, rfl⟩ : ∃ q d, q < 4 ∧ (d < 36524 ∨ d = 36524 ∧ q = 3) ∧
      doe = 36524 * q + d := by
    by_cases hlast : doe < 146096
    · exact ⟨doe / 36524, doe % 36524, by omega, by omega, by omega⟩
    · exact ⟨3, 36524, by omega, by omega, by omega⟩
  obtain ⟨s, t, hs, ht, hsplit⟩ : ∃ s t, s < 4 ∧ (t < 365 ∨ t = 365 ∧ s = 3) ∧
      d % 1461 = 365 * s + t := by
    by_cases hlast : d % 1461 < 1460
    · exact ⟨d % 1461 / 365, d % 1461 % 365, by omega, by omega, by omega⟩
    · exact ⟨3, 365, by omega, by omega, by omega⟩
  refine ⟨q, d / 1461, s, t, ⟨hq, by omega, hs, by omega⟩, ?_⟩
  unfold dayOfEra
  omega

theorem yearOfEra_eq {q r s t : Nat} (h : Place q r s t) :
    (dayOfEra q r s t - dayOfEra q r s t / 1460 + dayOfEra q r s t / 36524 -
      dayOfEra q r s t / 146096) / 365 = yearOfEra q r s := by
  obtain ⟨hq, hr, hs, ht⟩ := h
  have hfours : dayOfEra q r s t / 1460 = 25 * q + r + (24 * q + r + 365 * s + t) / 1460 := by
    unfold dayOfEra
    omega
  have hcenturies : dayOfEra q r s t / 36524 = q + (1461 * r + 365 * s + t) / 36524 := by
    unfold dayOfEra
    omega
  have hera : dayOfEra q r s t / 146096 = (1461 * r + 365 * s + t) / 36524 := by
    unfold dayOfEra
    omega
  rw [hfours, hcenturies, hera]
  unfold dayOfEra yearOfEra
  omega

/-- The days of an era before a year of it. -/
theorem daysBefore_yearOfEra {q r s : Nat} (hr : r < 25) (hs : s < 4) :
    365 * yearOfEra q r s + yearOfEra q r s / 4 - yearOfEra q r s / 100 =
      36524 * q + 1461 * r + 365 * s := by
  unfold yearOfEra
  omega

/-! ## The month -/

/-- The date of day `t` of the year that begins in March of `y`. -/
def dateOf (y t : Nat) : Date :=
  let mp := (5 * t + 2) / 153
  let month := if mp < 10 then mp + 3 else mp - 9
  ⟨y + (if month ≤ 2 then 1 else 0), month, t - (153 * mp + 2) / 5 + 1⟩

/-- The day is in the year: it has 365 days, or 366 if a leap day ends it. -/
def InYear (y t : Nat) : Prop := t < 365 ∨ t = 365 ∧ isLeap (y + 1)

/-- Up to December the year is that of March, then it is the next. -/
theorem dateOf_cases {y t : Nat} (h : InYear y t) :
    (∃ k, k ≤ 9 ∧ (153 * k + 2) / 5 ≤ t ∧ t < (153 * (k + 1) + 2) / 5 ∧
      dateOf y t = ⟨y, k + 3, t - (153 * k + 2) / 5 + 1⟩) ∨
    (306 ≤ t ∧ t < 337 ∧ dateOf y t = ⟨y + 1, 1, t - 306 + 1⟩) ∨
    (337 ≤ t ∧ t - 337 < monthLength (y + 1) 2 ∧ dateOf y t = ⟨y + 1, 2, t - 337 + 1⟩) := by
  have ht : t ≤ 365 := by
    rcases h with h | h
    · omega
    · omega
  by_cases hk : (5 * t + 2) / 153 < 10
  · refine .inl ⟨(5 * t + 2) / 153, by omega, by omega, by omega, ?_⟩
    unfold dateOf
    dsimp only
    rw [if_pos hk, if_neg (by omega), Nat.add_zero]
  · refine .inr ?_
    by_cases hjan : t < 337
    · have hmp : (5 * t + 2) / 153 = 10 := by
        omega
      refine .inl ⟨by omega, hjan, ?_⟩
      unfold dateOf
      rw [hmp]
      rfl
    · have hmp : (5 * t + 2) / 153 = 11 := by
        omega
      refine .inr ⟨by omega, ?_, ?_⟩
      · unfold monthLength
        rw [if_pos rfl]
        rcases h with h | ⟨h, hleap⟩
        · split <;> omega
        · rw [if_pos hleap]
          omega
      · unfold dateOf
        rw [hmp]
        rfl

/-- No month from March on is shorter than the division makes it. -/
theorem le_monthLength (y : Nat) {k : Nat} (hk : k ≤ 9) :
    (153 * (k + 1) + 2) / 5 - (153 * k + 2) / 5 ≤ monthLength y (k + 3) := by
  unfold monthLength
  interval_cases k
  all_goals exact Nat.le_refl _

theorem dateOf_valid {y t : Nat} (h : InYear y t) : (dateOf y t).Valid := by
  rcases dateOf_cases h with ⟨k, hk, hle, hlt, hdate⟩ | ⟨hle, hlt, hdate⟩ | ⟨hle, hlt, hdate⟩
  · have hlen := le_monthLength y hk
    rw [hdate]
    constructor <;> dsimp only <;> omega
  · have hlen : monthLength (y + 1) 1 = 31 := rfl
    rw [hdate]
    constructor <;> dsimp only <;> omega
  · rw [hdate]
    constructor <;> dsimp only <;> omega

/-- The number of the date, counted in years and months. -/
theorem dateOf_daysFrom {e y t : Nat} (h : InYear y t) (he : e ≤ (dateOf y t).year) :
    (dateOf y t).daysFrom e + (365 * e + leapsBefore e) =
      365 * y + leapsBefore (y + 1) + 59 + t := by
  have hleaps := leapsBefore_succ y
  unfold Date.daysFrom
  rcases dateOf_cases h with ⟨k, hk, hle, -, hdate⟩ | ⟨hle, -, hdate⟩ | ⟨hle, -, hdate⟩
  · rw [hdate] at he ⊢
    have hyears := yearsLength_eq he
    have hmonths := monthsLength_march y hk
    dsimp only at hyears ⊢
    omega
  · rw [hdate] at he ⊢
    have hyears := yearsLength_eq he
    dsimp only at hyears ⊢
    rw [monthsLength_one]
    omega
  · rw [hdate] at he ⊢
    have hyears := yearsLength_eq he
    dsimp only at hyears ⊢
    rw [monthsLength_two]
    omega

/-! ## The computation -/

/-- No day number of a `u64` second count is larger. -/
def lastDay : Nat := 213503982334601

theorem Place.inYear (era : Nat) {q r s t : Nat} (h : Place q r s t) :
    InYear (400 * era + yearOfEra q r s) t := by
  obtain ⟨-, hr, hs, ht⟩ := h
  refine ht.imp_right ?_
  rintro ⟨hday, rfl, hlast⟩
  refine ⟨hday, ?_⟩
  unfold isLeap yearOfEra
  omega

theorem civilFromDays_eq {z : Nat} (hz : z ≤ lastDay) :
    ∃ era q r s t, Place q r s t ∧ z + 719468 = 146097 * era + dayOfEra q r s t ∧
      civilFromDays z = some ((dateOf (400 * era + yearOfEra q r s) t).year,
        (dateOf (400 * era + yearOfEra q r s) t).month,
        (dateOf (400 * era + yearOfEra q r s) t).day) := by
  have hsize : u64Size = 18446744073709551616 := rfl
  have hlast : lastDay = 213503982334601 := rfl
  obtain ⟨q, r, s, t, hplace, hdoe⟩ := exists_place (Nat.mod_lt (z + 719468) (by decide))
  refine ⟨(z + 719468) / 146097, q, r, s, t, hplace, by omega, ?_⟩
  have hyoe := yearOfEra_eq hplace
  have hbefore := daysBefore_yearOfEra (q := q) hplace.group hplace.year
  have hyear : yearOfEra q r s < 400 := by
    obtain ⟨hq, hr, hs, -⟩ := hplace
    unfold yearOfEra
    omega
  have ht : t ≤ 365 := by
    rcases hplace.day with ht | ht
    · omega
    · omega
  have hrest : dayOfEra q r s t = 36524 * q + 1461 * r + 365 * s + t := rfl
  obtain ⟨era, hera⟩ : ∃ era, (z + 719468) / 146097 = era := ⟨_, rfl⟩
  have hday : z + 719468 - era * 146097 = dayOfEra q r s t := by
    omega
  rw [hera]
  generalize dayOfEra q r s t = doe at *
  generalize yearOfEra q r s = yoe at *
  have hdoy : doe - (365 * yoe + yoe / 4 - yoe / 100) = t := by
    omega
  obtain ⟨mp, hmp⟩ : ∃ mp, (5 * t + 2) / 153 = mp := ⟨_, rfl⟩
  have h₁ : add z 719468 = some (z + 719468) := add_eq (by omega)
  have h₂ : mul era 146097 = some (era * 146097) := mul_eq (by omega)
  have h₃ : sub (z + 719468) (era * 146097) = some doe := by
    rw [sub_eq (by omega), hday]
  have h₄ : sub doe (doe / 1460) = some (doe - doe / 1460) := sub_eq (by omega)
  have h₅ : add (doe - doe / 1460) (doe / 36524) = some (doe - doe / 1460 + doe / 36524) :=
    add_eq (by omega)
  have h₆ : sub (doe - doe / 1460 + doe / 36524) (doe / 146096) =
      some (doe - doe / 1460 + doe / 36524 - doe / 146096) := sub_eq (by omega)
  have h₇ : mul era 400 = some (era * 400) := mul_eq (by omega)
  have h₈ : add yoe (era * 400) = some (400 * era + yoe) := by
    rw [add_eq (by omega), Nat.add_comm, Nat.mul_comm]
  have h₉ : mul 365 yoe = some (365 * yoe) := mul_eq (by omega)
  have h₁₀ : add (365 * yoe) (yoe / 4) = some (365 * yoe + yoe / 4) := add_eq (by omega)
  have h₁₁ : sub (365 * yoe + yoe / 4) (yoe / 100) = some (365 * yoe + yoe / 4 - yoe / 100) :=
    sub_eq (by omega)
  have h₁₂ : sub doe (365 * yoe + yoe / 4 - yoe / 100) = some t := by
    rw [sub_eq (by omega), hdoy]
  have h₁₃ : mul 5 t = some (5 * t) := mul_eq (by omega)
  have h₁₄ : add (5 * t) 2 = some (5 * t + 2) := add_eq (by omega)
  have h₁₅ : mul 153 mp = some (153 * mp) := mul_eq (by omega)
  have h₁₆ : add (153 * mp) 2 = some (153 * mp + 2) := add_eq (by omega)
  have h₁₇ : sub t ((153 * mp + 2) / 5) = some (t - (153 * mp + 2) / 5) := sub_eq (by omega)
  have h₁₈ : add (t - (153 * mp + 2) / 5) 1 = some (t - (153 * mp + 2) / 5 + 1) :=
    add_eq (by omega)
  have h₁₉ : ∀ month, add (400 * era + yoe) (if month ≤ 2 then 1 else 0) =
      some (400 * era + yoe + if month ≤ 2 then 1 else 0) := by
    intro month
    apply add_eq
    split <;> omega
  unfold civilFromDays dateOf
  refine bind_eq_some h₁ ?_
  dsimp only
  rw [hera]
  refine bind_eq_some h₂ (bind_eq_some h₃ (bind_eq_some h₄ (bind_eq_some h₅
    (bind_eq_some h₆ ?_))))
  rw [hyoe]
  refine bind_eq_some h₇ (bind_eq_some h₈ (bind_eq_some h₉ (bind_eq_some h₁₀
    (bind_eq_some h₁₁ (bind_eq_some h₁₂ (bind_eq_some h₁₃ (bind_eq_some h₁₄ ?_)))))))
  rw [hmp]
  refine bind_eq_some h₁₅ (bind_eq_some h₁₆ (bind_eq_some h₁₇ (bind_eq_some h₁₈ ?_)))
  by_cases hmonth : mp < 10
  · simp only [if_pos hmonth]
    exact bind_eq_some (add_eq (by omega)) (bind_eq_some (h₁₉ _) rfl)
  · simp only [if_neg hmonth]
    exact bind_eq_some (sub_eq (by omega)) (bind_eq_some (h₁₉ _) rfl)

/-- The calendar finds the day again. -/
theorem civilFromDays_spec {z : Nat} (hz : z ≤ lastDay) :
    ∃ d : Date, civilFromDays z = some (d.year, d.month, d.day) ∧ d.Valid ∧ 1970 ≤ d.year ∧
      d.daysFrom 1970 = z := by
  obtain ⟨era, q, r, s, t, hplace, hsum, hcivil⟩ := civilFromDays_eq hz
  have hin := hplace.inYear era
  have hyear : 1970 ≤ (dateOf (400 * era + yearOfEra q r s) t).year := by
    obtain ⟨hq, hr, hs, ht⟩ := hplace
    unfold dayOfEra at hsum
    rcases dateOf_cases hin with ⟨k, hk, -, hlt, hdate⟩ | ⟨-, -, hdate⟩ | ⟨-, -, hdate⟩
    all_goals
      rw [hdate]
      unfold yearOfEra
      dsimp only
      omega
  refine ⟨_, hcivil, dateOf_valid hin, hyear, ?_⟩
  have hdays := dateOf_daysFrom hin hyear
  obtain ⟨hq, hr, hs, ht⟩ := hplace
  unfold leapsBefore yearOfEra at hdays
  unfold yearOfEra dayOfEra at *
  omega

theorem day_le_lastDay {secs : Nat} (h : secs < 2 ^ 64) : secs / secondsPerDay ≤ lastDay := by
  unfold secondsPerDay lastDay
  omega

/-- **Dates are right.** Nothing overflows for any `u64` second count, and the date is one of the
calendar, as many days after the first of January 1970 as the seconds make up. Later days have later
dates. -/
theorem timestamps_right :
    (∀ secs, secs < 2 ^ 64 → (shortUnixTimestamp secs).isSome ∧
      ∃ d : Date, civilFromDays (secs / secondsPerDay) = some (d.year, d.month, d.day) ∧
        d.Valid ∧ 1970 ≤ d.year ∧ d.daysFrom 1970 = secs / secondsPerDay) ∧
    ∀ secs secs' (d d' : Date), secs < 2 ^ 64 → secs' < 2 ^ 64 →
      civilFromDays (secs / secondsPerDay) = some (d.year, d.month, d.day) →
      civilFromDays (secs' / secondsPerDay) = some (d'.year, d'.month, d'.day) →
      secs / secondsPerDay < secs' / secondsPerDay → d.Before d' := by
  constructor
  · intro secs hsecs
    obtain ⟨d, hcivil, hd⟩ := civilFromDays_spec (day_le_lastDay hsecs)
    refine ⟨?_, d, hcivil, hd⟩
    unfold shortUnixTimestamp
    dsimp only
    rw [hcivil]
    rfl
  · intro secs secs' d d' hsecs hsecs' hd hd' hlt
    obtain ⟨e, he, -, -, hnum⟩ := civilFromDays_spec (day_le_lastDay hsecs)
    obtain ⟨e', he', hvalid, hyear, hnum'⟩ := civilFromDays_spec (day_le_lastDay hsecs')
    have hde : d = e := by
      cases d
      cases e
      cases hd.symm.trans he
      rfl
    have hde' : d' = e' := by
      cases d'
      cases e'
      cases hd'.symm.trans he'
      rfl
    subst hde
    subst hde'
    exact Date.before_of_daysFrom_lt hvalid hyear (by omega)

/-- A leap day of a century. -/
theorem leapDay_right : ∃ d : Date, civilFromDays 11016 = some (d.year, d.month, d.day) ∧
    d.Valid ∧ 1970 ≤ d.year ∧ d.daysFrom 1970 = 11016 :=
  (timestamps_right.1 951782400 (by decide)).2

example : shortUnixTimestamp 951782400 = some "2000-02-29 00:00" := by
  decide

end Timefmt
end Proof
end Diffz
