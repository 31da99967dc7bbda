import PipelineX.Calendar
import Mathlib.Tactic.Common
import Mathlib.Tactic.Ring

/-!
# Days and seconds after a date

The date of the next day, and what a number of seconds after a midnight is in
the calendar. Ordinals and instants go on with them.
-/

set_option autoImplicit false

namespace PipelineX.CivilDate
open PipelineX.Calendar

structure Date where
  year : ℕ
  month : ℕ
  day : ℕ
  year_pos : 1 ≤ year
  month_mem : 1 ≤ month ∧ month ≤ 12
  day_mem : 1 ≤ day ∧ day ≤ daysInMonth year month
  deriving DecidableEq

namespace Date

def ordinal (d : Date) : ℕ := toordinal d.year d.month d.day

theorem one_le_daysInMonth (year month : ℕ) : 1 ≤ daysInMonth year month := by
  unfold daysInMonth
  split
  · split <;> omega
  · split <;> omega

def tomorrow (d : Date) : Date :=
  if h : d.day < daysInMonth d.year d.month then
    { d with day := d.day+1, day_mem := ⟨by omega,h⟩ }
  else if hm : d.month < 12 then
    { year := d.year
      month := d.month+1
      day := 1
      year_pos := d.year_pos
      month_mem := ⟨by omega,hm⟩
      day_mem := ⟨le_refl 1,one_le_daysInMonth _ _⟩ }
  else
    { year := d.year+1
      month := 1
      day := 1
      year_pos := by omega
      month_mem := ⟨le_refl 1,by omega⟩
      day_mem := ⟨le_refl 1,one_le_daysInMonth _ _⟩ }

def addDays (d : Date) : ℕ → Date
  | 0 => d
  | n+1 => (d.addDays n).tomorrow

theorem daysBeforeMonth_succ (year : ℕ) {month : ℕ} (h : 1 ≤ month) :
    daysBeforeMonth year (month+1) = daysBeforeMonth year month + daysInMonth year month := by
  obtain ⟨k,rfl⟩ := Nat.exists_eq_add_of_le' h
  simp [daysBeforeMonth, List.range'_concat, Nat.add_comm]

theorem december (year : ℕ) : daysBeforeMonth year 12 = if isLeap year then 335 else 334 := by
  cases hleap : isLeap year <;> simp [daysBeforeMonth, daysInMonth, List.range', hleap]

theorem daysBeforeYear_succ {year : ℕ} (h : 1 ≤ year) :
    daysBeforeYear (year+1) = daysBeforeYear year + daysBeforeMonth year 12 + 31 := by
  obtain ⟨k,rfl⟩ := Nat.exists_eq_add_of_le' h
  have hle : k/100 ≤ k/4 := Nat.div_le_div_left (by decide) (by decide)
  -- a year that 400 divides is one that 100 divides, and so on
  have h100 : (k+1)%100 = 0 → (k+1)%4 = 0 := by omega
  have h400 : (k+1)%400 = 0 → (k+1)%100 = 0 := by omega
  rw [december]
  simp only [daysBeforeYear, Nat.add_sub_cancel, Nat.succ_div, Nat.dvd_iff_mod_eq_zero, isLeap,
    decide_eq_true_eq]
  generalize k/4 = a at *
  generalize k/100 = b at *
  generalize k/400 = c at *
  by_cases h₁ : (k+1)%4 = 0
  · by_cases h₂ : (k+1)%100 = 0
    · by_cases h₃ : (k+1)%400 = 0 <;> simp [h₁, h₂, h₃] <;> omega
    · have h₃ : ¬(k+1)%400 = 0 := mt h400 h₂
      simp [h₁, h₂, h₃]
      omega
  · have h₂ : ¬(k+1)%100 = 0 := mt h100 h₁
    have h₃ : ¬(k+1)%400 = 0 := mt h400 h₂
    simp [h₁, h₂, h₃]
    omega

theorem tomorrow_ordinal (d : Date) : d.tomorrow.ordinal = d.ordinal+1 := by
  have hday := d.day_mem
  unfold tomorrow
  split
  · rfl
  · next hlast =>
    split
    · next hm =>
      simp only [ordinal, toordinal, daysBeforeMonth_succ d.year d.month_mem.1]
      omega
    · next hm =>
      have hmonth : d.month = 12 := by have := d.month_mem; omega
      have hthirty : daysInMonth d.year 12 = 31 := rfl
      have hfirst : daysBeforeMonth (d.year+1) 1 = 0 := rfl
      rw [hmonth, hthirty] at hday hlast
      simp only [ordinal, toordinal, daysBeforeYear_succ d.year_pos, hfirst, hmonth]
      omega

theorem addDays_ordinal (d : Date) (n : ℕ) : (d.addDays n).ordinal = d.ordinal+n := by
  induction n with
  | zero => rfl
  | succ n ih => rw [addDays, tomorrow_ordinal, ih, Nat.add_assoc]

theorem tomorrow_year (d : Date) : d.year ≤ d.tomorrow.year ∧ d.tomorrow.year ≤ d.year+1 := by
  unfold tomorrow
  split
  · exact ⟨le_refl _,Nat.le_succ _⟩
  · split
    · exact ⟨le_refl _,Nat.le_succ _⟩
    · exact ⟨Nat.le_succ _,le_refl _⟩

theorem addDays_year (d : Date) (n : ℕ) :
    d.year ≤ (d.addDays n).year ∧ (d.addDays n).year ≤ d.year+n := by
  induction n with
  | zero => exact ⟨le_refl _,le_refl _⟩
  | succ n ih =>
    have hnext := (d.addDays n).tomorrow_year
    rw [addDays]
    omega

/-- A date as `datetime` has it, if the year is not too late. -/
theorem isDate (d : Date) (h : d.year ≤ 9999) : IsDate d.year d.month d.day :=
  ⟨⟨d.year_pos,h⟩,d.month_mem,d.day_mem⟩

end Date

/-- A second of a date. -/
structure Moment where
  date : Date
  hour : ℕ
  minute : ℕ
  second : ℕ
  hour_le : hour ≤ 23
  minute_le : minute ≤ 59
  second_le : second ≤ 59
  deriving DecidableEq

/-- `s` seconds after midnight of a date. -/
def secondsAfter (d : Date) (s : ℕ) : Moment where
  date := d.addDays (s/86400)
  hour := s%86400/3600
  minute := s%3600/60
  second := s%60
  hour_le := by omega
  minute_le := by omega
  second_le := by omega

def Moment.instant (m : Moment) (microsecond : ℕ) : ℤ :=
  Calendar.instant m.date.year m.date.month m.date.day m.hour m.minute m.second microsecond

def midnight (d : Date) : ℤ := Calendar.instant d.year d.month d.day 0 0 0 0

theorem secondsAfter_instant (d : Date) (s microsecond : ℕ) :
    (secondsAfter d s).instant microsecond = midnight d + s*1000000 + microsecond := by
  have hordinal := d.addDays_ordinal (s/86400)
  simp only [Date.ordinal] at hordinal
  have hparts : s/86400*86400 + s%86400/3600*3600 + s%3600/60*60 + s%60 = s := by omega
  simp only [Moment.instant, secondsAfter, midnight, Calendar.instant, hordinal]
  push_cast
  omega

end PipelineX.CivilDate
