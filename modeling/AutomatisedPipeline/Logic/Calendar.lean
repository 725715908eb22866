import Mathlib.Tactic.IntervalCases

/-!
The proleptic Gregorian calendar: leap years, the lengths of the months, and the number of a day.

The formula for the number of a day counts years from March, so that the leap day is the last of its
year: `daysFromCivil_eq` splits it in the days before the first of March and the day of the year.
Dates are ordered as their numbers are (`daysFromCivil_lt`).
-/

namespace AutomatisedPipeline.Calendar

/-! ### Dates -/

def IsLeap (year : Int) : Prop := year % 4 = 0 ∧ (year % 100 ≠ 0 ∨ year % 400 = 0)

instance (year : Int) : Decidable (IsLeap year) :=
  inferInstanceAs (Decidable (_ ∧ _))

def monthLength (year month : Int) : Int :=
  if month = 2 then if IsLeap year then 29 else 28
  else if month = 4 ∨ month = 6 ∨ month = 9 ∨ month = 11 then 30
  else 31

/-- A date of the calendar. -/
structure IsDate (year month day : Int) : Prop where
  inYear : 1 ≤ month ∧ month ≤ 12
  inMonth : 1 ≤ day ∧ day ≤ monthLength year month

instance (year month day : Int) : Decidable (IsDate year month day) :=
  decidable_of_iff ((1 ≤ month ∧ month ≤ 12) ∧ 1 ≤ day ∧ day ≤ monthLength year month)
    ⟨fun ⟨a, b⟩ => ⟨a, b⟩, fun ⟨a, b⟩ => ⟨a, b⟩⟩

/-- The number of a day, counted from the first of January 1970: the days-from-civil formula. -/
def daysFromCivil (year month day : Int) : Int :=
  let y := if month ≤ 2 then year - 1 else year
  let era := y / 400
  let yoe := y - era * 400
  let doy := (153 * (if month > 2 then month - 3 else month + 9) + 2) / 5 + day - 1
  let doe := yoe * 365 + yoe / 4 - yoe / 100 + doy
  era * 146097 + doe - 719468

/-! ### Years from March -/

/-- The days from the first of March of year 0 to that of a year. -/
def marchFirst (year : Int) : Int := 365 * year + year / 4 - year / 100 + year / 400

/-- The year that began in March. -/
def marchYear (year month : Int) : Int := if month ≤ 2 then year - 1 else year

/-- The month of the year that began in March, from 0. -/
def marchMonth (month : Int) : Int := if month > 2 then month - 3 else month + 9

/-- The day of the year that began in March, from 0. -/
def marchDay (month day : Int) : Int := (153 * marchMonth month + 2) / 5 + day - 1

theorem daysFromCivil_eq (year month day : Int) :
    daysFromCivil year month day =
      marchFirst (marchYear year month) + marchDay month day - 719468 := by
  simp only [daysFromCivil, marchFirst, marchYear, marchDay, marchMonth]
  generalize (if month ≤ 2 then year - 1 else year) = y
  omega

/-- A year that began in March has its leap day in the next one. -/
theorem marchFirst_succ (year : Int) :
    marchFirst (year + 1) = marchFirst year + if IsLeap (year + 1) then 366 else 365 := by
  by_cases h : IsLeap (year + 1)
  · rw [if_pos h]
    unfold IsLeap at h
    unfold marchFirst
    omega
  · rw [if_neg h]
    unfold IsLeap at h
    unfold marchFirst
    omega

theorem marchFirst_mono {year year' : Int} (h : year < year') :
    marchFirst (year + 1) ≤ marchFirst year' := by
  unfold marchFirst
  omega

/-- A date lies in its year. -/
theorem marchDay_bounds {year month day : Int} (h : IsDate year month day) :
    0 ≤ marchDay month day ∧
      marchFirst (marchYear year month) + marchDay month day <
        marchFirst (marchYear year month + 1) := by
  obtain ⟨⟨hfirst, hlast⟩, hday, hlength⟩ := h
  rw [marchFirst_succ]
  unfold monthLength at hlength
  unfold marchYear marchDay marchMonth
  by_cases hmonth : month ≤ 2
  · rw [if_pos hmonth, if_neg (by omega), Int.sub_add_cancel]
    by_cases hleap : IsLeap year
    · rw [if_pos hleap] at hlength ⊢
      split_ifs at hlength <;> omega
    · rw [if_neg hleap] at hlength ⊢
      split_ifs at hlength <;> omega
  · rw [if_neg hmonth, if_pos (by omega)]
    have hdays : (365 : Int) ≤ if IsLeap (year + 1) then 366 else 365 := by split <;> omega
    split_ifs at hlength <;> omega

theorem marchMonth_le {year month day : Int} (h : IsDate year month day) :
    marchMonth month ≤ 11 := by
  obtain ⟨⟨hfirst, hlast⟩, -⟩ := h
  unfold marchMonth
  split_ifs <;> omega

/-- The days of a month, which is not February, end where those of the next one begin. -/
theorem day_le_of_marchMonth {year month day : Int} (h : IsDate year month day)
    (hmonth : marchMonth month < 11) :
    day ≤ (153 * (marchMonth month + 1) + 2) / 5 - (153 * marchMonth month + 2) / 5 := by
  obtain ⟨⟨hfirst, hlast⟩, -, hlength⟩ := h
  unfold monthLength at hlength
  unfold marchMonth at hmonth ⊢
  interval_cases month <;> simp at hmonth hlength ⊢ <;> omega

theorem marchDay_lt {year month day year' month' day' : Int} (h : IsDate year month day)
    (h' : IsDate year' month' day') (hlt : marchMonth month < marchMonth month') :
    marchDay month day < marchDay month' day' := by
  have hlast := marchMonth_le h'
  have hdays := day_le_of_marchMonth h (by omega)
  have hday' := h'.inMonth.1
  unfold marchDay
  omega

/-! ### The order of dates -/

/-- A later date has a greater number. -/
theorem daysFromCivil_lt {year month day year' month' day' : Int} (h : IsDate year month day)
    (h' : IsDate year' month' day')
    (hlt : year < year' ∨ year = year' ∧ (month < month' ∨ month = month' ∧ day < day')) :
    daysFromCivil year month day < daysFromCivil year' month' day' := by
  have hbounds := marchDay_bounds h
  have hbounds' := marchDay_bounds h'
  have hmonths := h.inYear
  have hmonths' := h'.inYear
  rw [daysFromCivil_eq, daysFromCivil_eq]
  have hyears : marchYear year month < marchYear year' month' ∨
      marchYear year month = marchYear year' month' ∧
        (marchMonth month < marchMonth month' ∨ month = month' ∧ day < day') := by
    unfold marchYear marchMonth
    split_ifs <;> omega
  rcases hyears with hyear | ⟨hyear, hmonth | ⟨rfl, hday⟩⟩
  · have hmono := marchFirst_mono hyear
    omega
  · have hday := marchDay_lt h h' hmonth
    rw [hyear]
    omega
  · rw [hyear]
    unfold marchDay
    omega

end AutomatisedPipeline.Calendar
