import Mathlib.Tactic.SplitIfs

/-!
# The Gregorian calendar

The years that have a leap day, the lengths of the months, and the moments of the calendar: a
date that exists and a time of day.
-/

namespace Calendar

/-- Every fourth year has a leap day, but of the hundredth ones only every fourth. -/
def Leap (year : Nat) : Prop := 4 ∣ year ∧ (100 ∣ year → 400 ∣ year)

instance (year : Nat) : Decidable (Leap year) := inferInstanceAs (Decidable (_ ∧ (_ → _)))

/-- The days of a month; there are twelve months. -/
def monthLength (year : Nat) : Nat → Nat
  | 4 | 6 | 9 | 11 => 30
  | 2 => if Leap year then 29 else 28
  | 1 | 3 | 5 | 7 | 8 | 10 | 12 => 31
  | _ => 0

structure Moment where
  year : Nat
  month : Nat
  day : Nat
  hour : Nat
  minute : Nat
  second : Nat
  day_pos : 1 ≤ day
  day_le : day ≤ monthLength year month
  hour_lt : hour < 24
  minute_lt : minute < 60
  second_lt : second < 60

/-- Only a leap year has a twenty-ninth of February. -/
theorem leapDay_le {year : Nat} : 29 ≤ monthLength year 2 ↔ Leap year := by
  rw [monthLength]
  split_ifs with h
  · exact ⟨fun _ ↦ h, fun _ ↦ Nat.le_refl _⟩
  · exact ⟨fun hle ↦ absurd hle (by decide), fun hleap ↦ absurd hleap h⟩

theorem monthLength_le (year month : Nat) : monthLength year month ≤ 31 := by
  unfold monthLength
  split
  case h_5 => split_ifs <;> decide
  all_goals decide

theorem month_le {year month : Nat} (h : 0 < monthLength year month) : month ≤ 12 := by
  refine Nat.le_of_not_lt fun hlt ↦ ?_
  obtain ⟨k, rfl⟩ := Nat.exists_eq_add_of_le' hlt
  exact Nat.lt_irrefl 0 h

/-- The moment of a leap day. -/
def Moment.leapDay {year hour minute second : Nat} (hyear : Leap year) (hhour : hour < 24)
    (hminute : minute < 60) (hsecond : second < 60) : Moment :=
  ⟨year, 2, 29, hour, minute, second, by decide, leapDay_le.mpr hyear, hhour, hminute, hsecond⟩

end Calendar
