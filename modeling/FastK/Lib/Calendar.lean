import Mathlib.Tactic.Linarith
/-!
# The proleptic Gregorian calendar

Days count from 1970-01-01.  A month is numbered `12 * year + (month - 1)`, so January of year 0 is month 0.  The
first day of a month and the month of a day form a Galois connection (`monthStart_le_iff`), from which everything
else follows: the months follow one another, and a day is fixed by its month and its place in it.
-/
namespace Calendar

/-- Days from 0000-03-01 to the first of March of year `y`. -/
def yearStart (y : Int) : Int := 365 * y + y / 4 - y / 100 + y / 400

/-- The year, counted from its first of March, of a day counted from 0000-03-01. -/
def marchYear (d : Int) : Int :=
  if yearStart (400 * d / 146097 + 1) ≤ d then 400 * d / 146097 + 1 else 400 * d / 146097

/-- Days from 0000-03-01 to 1970-01-01. -/
def epochOffset : Int := 719468

/-- The number of the month that holds a day. -/
def monthIndex (day : Int) : Int :=
  let d := day + epochOffset
  12 * marchYear d + (5 * (d - yearStart (marchYear d)) + 2) / 153 + 2

/-- The first day of a month. -/
def monthStart (m : Int) : Int := yearStart ((m - 2) / 12) + (153 * ((m - 2) % 12) + 2) / 5 - epochOffset

def year (day : Int) : Int := monthIndex day / 12

/-- The month of the year, from 1. -/
def month (day : Int) : Nat := (monthIndex day % 12 + 1).toNat

/-- The day of the month, from 1. -/
def dayOfMonth (day : Int) : Nat := (day - monthStart (monthIndex day) + 1).toNat

theorem yearStart_lt_of_lt {y z : Int} (h : y < z) : yearStart y + 365 ≤ yearStart z := by
  unfold yearStart
  omega

/-- **A day lies in its year.** -/
theorem marchYear_brackets (d : Int) : yearStart (marchYear d) ≤ d ∧ d < yearStart (marchYear d + 1) := by
  unfold marchYear
  split
  · rename_i h
    refine ⟨h, ?_⟩
    unfold yearStart at h ⊢
    omega
  · rename_i h
    refine ⟨?_, by omega⟩
    unfold yearStart
    omega

/-- **A month begins by a day exactly when it is no later than the day's month.** -/
theorem monthStart_le_iff (m day : Int) : monthStart m ≤ day ↔ m ≤ monthIndex day := by
  obtain ⟨h1, h2⟩ := marchYear_brackets (day + epochOffset)
  have hlen : yearStart (marchYear (day + epochOffset) + 1) ≤ yearStart (marchYear (day + epochOffset)) + 366 := by
    unfold yearStart
    omega
  unfold monthStart monthIndex
  simp only
  generalize marchYear (day + epochOffset) = y at h1 h2 hlen ⊢
  rcases lt_trichotomy ((m - 2) / 12) y with hlt | heq | hgt
  · have := yearStart_lt_of_lt hlt
    omega
  · rw [heq]
    omega
  · have : yearStart (y + 1) ≤ yearStart ((m - 2) / 12) := by
      rcases lt_or_eq_of_le (show y + 1 ≤ (m - 2) / 12 by omega) with h | h
      · have := yearStart_lt_of_lt h
        omega
      · rw [h]
    omega

theorem monthIndex_mono {a b : Int} (h : a ≤ b) : monthIndex a ≤ monthIndex b :=
  (monthStart_le_iff _ _).1 (le_trans ((monthStart_le_iff _ _).2 (le_refl _)) h)

theorem monthStart_monthIndex_le (day : Int) : monthStart (monthIndex day) ≤ day :=
  (monthStart_le_iff _ _).2 (le_refl _)

/-- No month has more than 31 days. -/
theorem monthStart_succ_le (m : Int) : monthStart (m + 1) ≤ monthStart m + 31 := by
  have hlen : yearStart ((m - 2) / 12 + 1) ≤ yearStart ((m - 2) / 12) + 366 := by
    unfold yearStart
    omega
  unfold monthStart
  rcases lt_or_ge ((m - 2) % 12) 11 with hlt | hge
  · rw [show (m + 1 - 2) / 12 = (m - 2) / 12 by omega]
    omega
  · rw [show (m + 1 - 2) / 12 = (m - 2) / 12 + 1 by omega]
    omega

theorem lt_monthStart_add {a b : Int} (h : monthIndex b ≤ monthIndex a) : b < monthStart (monthIndex a) + 31 := by
  have h1 := (monthStart_le_iff (monthIndex a + 1) b).not.2 (by omega)
  have h2 := monthStart_succ_le (monthIndex a)
  omega

/-- Year and month of the year fix the month. -/
theorem monthIndex_eq_of {a b : Int} (hy : year a = year b) (hm : month a = month b) : monthIndex a = monthIndex b := by
  unfold year month at *
  omega

/-- **Month and day of the month fix the day.** -/
theorem day_eq_of {a b : Int} (hm : monthIndex a = monthIndex b) (hd : dayOfMonth a = dayOfMonth b) : a = b := by
  have ha := monthStart_monthIndex_le a
  have hb := monthStart_monthIndex_le b
  unfold dayOfMonth at hd
  rw [hm] at hd ha
  omega

example : (year 19782, month 19782, dayOfMonth 19782) = (2024, 2, 29) := by decide

end Calendar
