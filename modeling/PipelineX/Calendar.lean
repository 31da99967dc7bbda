import Mathlib.Data.Nat.Notation
import Mathlib.Data.Int.Notation
import Mathlib.Algebra.Ring.Nat

/-!
# The calendar of `datetime`

Days since the year 1 and microseconds since the epoch, in the proleptic
Gregorian calendar.
-/

set_option autoImplicit false

namespace PipelineX.Calendar

def isLeap (year : ℕ) : Bool := year%4 = 0 ∧ (year%100 ≠ 0 ∨ year%400 = 0)

def daysInMonth (year month : ℕ) : ℕ :=
  if month = 2 then if isLeap year then 29 else 28
  else if month ∈ [4,6,9,11] then 30
  else 31

def daysBeforeMonth (year month : ℕ) : ℕ :=
  ((List.range' 1 (month-1)).map (daysInMonth year)).sum

def daysBeforeYear (year : ℕ) : ℕ := (year-1)*365+(year-1)/4-(year-1)/100+(year-1)/400

def toordinal (year month day : ℕ) : ℕ :=
  daysBeforeYear year + daysBeforeMonth year month + day

/-- A date that `datetime.date` accepts. -/
def IsDate (year month day : ℕ) : Prop :=
  (1 ≤ year ∧ year ≤ 9999) ∧ (1 ≤ month ∧ month ≤ 12) ∧ 1 ≤ day ∧ day ≤ daysInMonth year month

instance (year month day : ℕ) : Decidable (IsDate year month day) :=
  inferInstanceAs (Decidable (_ ∧ _))

def epoch : ℕ := toordinal 1970 1 1

/-- Microseconds since the epoch, in UTC. -/
def instant (year month day hour minute second microsecond : ℕ) : ℤ :=
  ((((toordinal year month day - epoch : ℤ)*24+hour)*60+minute)*60+second)*1000000+microsecond

end PipelineX.Calendar
