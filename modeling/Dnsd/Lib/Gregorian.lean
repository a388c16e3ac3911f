/-
# Gregorian — the proleptic Gregorian calendar, counted from its rules.

A date is counted by the lengths of the years and months before it; the lengths are the leap rule and
nothing else.  `sum_daysInYear` is the closed form that arithmetic on day numbers is checked against.
-/
import Mathlib.Algebra.BigOperators.Group.Finset.Basic

namespace Dnsd.Lib.Gregorian

open Finset

def IsLeap (y : Nat) : Prop := y % 4 = 0 ∧ (y % 100 ≠ 0 ∨ y % 400 = 0)

instance : DecidablePred IsLeap := fun y =>
  inferInstanceAs (Decidable (y % 4 = 0 ∧ (y % 100 ≠ 0 ∨ y % 400 = 0)))

def daysInMonth (y : Nat) : Nat → Nat
  | 2 => if IsLeap y then 29 else 28
  | 4 | 6 | 9 | 11 => 30
  | _ => 31

def daysInYear (y : Nat) : Nat := ∑ m ∈ range 12, daysInMonth y (m + 1)

def dayNumber (y m d : Nat) : Nat :=
  ∑ i ∈ range y, daysInYear i + ∑ i ∈ range (m - 1), daysInMonth y (i + 1) + (d - 1)

structure DateTime where
  year : Nat
  month : Nat
  day : Nat
  hour : Nat
  minute : Nat
  second : Nat
  month_mem : 1 ≤ month ∧ month ≤ 12
  day_mem : 1 ≤ day ∧ day ≤ daysInMonth year month
  hour_lt : hour < 24
  minute_lt : minute < 60
  second_lt : second < 60

namespace DateTime

def seconds (t : DateTime) : Nat :=
  dayNumber t.year t.month t.day * 86400 + t.hour * 3600 + t.minute * 60 + t.second

def unixEpoch : DateTime := ⟨1970, 1, 1, 0, 0, 0, by decide, by decide, by decide, by decide, by decide⟩

def unixTime (t : DateTime) : Int := t.seconds - unixEpoch.seconds

end DateTime

theorem daysInYear_eq (y : Nat) : daysInYear y = if IsLeap y then 366 else 365 := by
  simp only [daysInYear, sum_range_succ, sum_range_zero, daysInMonth]
  split <;> rfl

theorem sum_daysInYear (y : Nat) :
    ∑ i ∈ range y, daysInYear i + (y + 99) / 100 = 365 * y + (y + 3) / 4 + (y + 399) / 400 := by
  induction y with
  | zero => rfl
  | succ y ih =>
    have h4 : (y + 1 + 3) / 4 = (y + 3) / 4 + if y % 4 = 0 then 1 else 0 := by split <;> omega
    have h100 : (y + 1 + 99) / 100 = (y + 99) / 100 + if y % 100 = 0 then 1 else 0 := by split <;> omega
    have h400 : (y + 1 + 399) / 400 = (y + 399) / 400 + if y % 400 = 0 then 1 else 0 := by split <;> omega
    have hlen : daysInYear y + (if y % 100 = 0 then 1 else 0) =
        365 + (if y % 4 = 0 then 1 else 0) + if y % 400 = 0 then 1 else 0 := by
      rw [daysInYear_eq]
      by_cases hc : y % 4 = 0 <;> by_cases hs : y % 100 = 0 <;> by_cases hg : y % 400 = 0 <;>
        simp [IsLeap, hc, hs, hg] <;> omega
    rw [sum_range_succ]
    omega

-- The year is a variable here: nothing may count the days of a fixed one.
theorem DateTime.seconds_newYear {t : DateTime} (hy : t.year = 1970) (hm : t.month = 1) (hd : t.day = 1)
    (hh : t.hour = 0) (hmin : t.minute = 0) (hs : t.second = 0) : t.seconds = 719528 * 86400 := by
  have h := sum_daysInYear t.year
  rw [seconds, dayNumber, hm, hd, hh, hmin, hs, Nat.sub_self, range_zero, sum_empty]
  omega

theorem DateTime.unixTime_eq (t : DateTime) : t.unixTime = t.seconds - 719528 * 86400 := by
  rw [unixTime, seconds_newYear (t := unixEpoch) rfl rfl rfl rfl rfl rfl]
  rfl

end Dnsd.Lib.Gregorian
