import AutomatisedPipeline.Logic.Calendar
import Mathlib.Tactic.Ring

/-!
Civil dates from seconds since the epoch (`civil_from_unix` of `handler_util.rs`).

Each operation on 64-bit integers is checked (`i64`), so a result says that no intermediate value
overflows. The era, the year of the era and the day of that year are those of the calendar
(`yearOfEra_spec`), and from them come the month and the day (`date_of_marchDay`).
-/

namespace AutomatisedPipeline.HandlerUtil

open Calendar

/-! ### The conversion -/

/-- The result of an `i64` operation, if it has no overflow. -/
def i64 (x : Int) : Option Int := if -2 ^ 63 ≤ x ∧ x < 2 ^ 63 then some x else none

/-- `as i64` of a `u64`. -/
def asI64 (n : Nat) : Int := if n < 2 ^ 63 then n else n - 2 ^ 64

/-- `as u32` of an `i64`. -/
def asU32 (x : Int) : Nat := (x % 2 ^ 32).toNat

/-- What `civil_from_unix` returns. -/
structure Civil where
  year : Int
  month : Nat
  day : Nat
  hour : Nat
  minute : Nat
  second : Nat
deriving DecidableEq, Repr

/-- The first part of `civil_from_unix`: the era, and the day of the era. The division of `i64`
truncates. -/
def eraOf (days : Int) : Option (Int × Int) := do
  let z ← i64 (days + 719468)
  let shifted ← if 0 ≤ z then some z else i64 (z - 146096)
  let era := shifted.tdiv 146097
  let eraStart ← i64 (era * 146097)
  let doe ← i64 (z - eraStart)
  return (era, doe)

/-- The second part: the year from March, and the day of that year. -/
def yearOf (era doe : Int) : Option (Int × Int) := do
  let fourYears ← i64 (doe - doe.tdiv 1460)
  let centuries ← i64 (fourYears + doe.tdiv 36524)
  let cycle ← i64 (centuries - doe.tdiv 146096)
  let yoe := cycle.tdiv 365
  let eraYear ← i64 (era * 400)
  let y ← i64 (yoe + eraYear)
  let commonDays ← i64 (365 * yoe)
  let leapDays ← i64 (commonDays + yoe.tdiv 4)
  let yearStart ← i64 (leapDays - yoe.tdiv 100)
  let doy ← i64 (doe - yearStart)
  return (y, doy)

/-- The third part: the year, the month and the day. -/
def dateOf (y doy : Int) : Option (Int × Nat × Nat) := do
  let fives ← i64 (5 * doy)
  let shifted ← i64 (fives + 2)
  let mp := shifted.tdiv 153
  let months ← i64 (153 * mp)
  let monthEnds ← i64 (months + 2)
  let d ← i64 (doy - monthEnds.tdiv 5)
  let d ← i64 (d + 1)
  let mo ← if mp < 10 then i64 (mp + 3) else i64 (mp - 9)
  let y ← if asU32 mo ≤ 2 then i64 (y + 1) else some y
  return (y, asU32 mo, asU32 d)

/-- `civil_from_unix`. -/
def civilFromUnix (secs : UInt64) : Option Civil := do
  let days := asI64 (secs.toNat / 86400)
  let rem := asU32 (secs.toNat % 86400 : Nat)
  let (era, doe) ← eraOf days
  let (y, doy) ← yearOf era doe
  let (y, mo, d) ← dateOf y doy
  return ⟨y, mo, d, rem / 3600, rem % 3600 / 60, rem % 60⟩

/-! ### Dates and times -/

namespace Civil

/-- A date of the calendar, and a time of the day. -/
structure IsValid (t : Civil) : Prop where
  date : IsDate t.year t.month t.day
  time : t.hour < 24 ∧ t.minute < 60 ∧ t.second < 60

/-- The seconds since the epoch, by the days-from-civil formula. -/
def unix (t : Civil) : Int :=
  daysFromCivil t.year t.month t.day * 86400 + (t.hour * 3600 + t.minute * 60 + t.second)

/-- The first field in which two times differ is less. -/
def Before (t t' : Civil) : Prop :=
  t.year < t'.year ∨ t.year = t'.year ∧ (t.month < t'.month ∨ t.month = t'.month ∧
    (t.day < t'.day ∨ t.day = t'.day ∧ (t.hour < t'.hour ∨ t.hour = t'.hour ∧
      (t.minute < t'.minute ∨ t.minute = t'.minute ∧ t.second < t'.second))))

theorem before_or (t t' : Civil) : t.Before t' ∨ t = t' ∨ t'.Before t := by
  obtain ⟨y, mo, d, h, mi, s⟩ := t
  obtain ⟨y', mo', d', h', mi', s'⟩ := t'
  simp only [Before, mk.injEq]
  omega

/-- A later time has more seconds. -/
theorem unix_lt {t t' : Civil} (h : t.IsValid) (h' : t'.IsValid) (hlt : t.Before t') :
    t.unix < t'.unix := by
  have htime := h.time
  have htime' := h'.time
  unfold unix
  by_cases hday : t.year = t'.year ∧ t.month = t'.month ∧ t.day = t'.day
  · obtain ⟨hyear, hmonth, hday⟩ := hday
    unfold Before at hlt
    rw [hyear, hmonth, hday]
    omega
  · have hdays := daysFromCivil_lt h.date h'.date (by unfold Before at hlt; omega)
    omega

theorem before_iff {t t' : Civil} (h : t.IsValid) (h' : t'.IsValid) :
    t.Before t' ↔ t.unix < t'.unix := by
  refine ⟨unix_lt h h', fun hlt => ?_⟩
  rcases before_or t t' with hbefore | rfl | hafter
  · exact hbefore
  · exact absurd hlt (lt_irrefl _)
  · exact absurd hlt (unix_lt h' h hafter).asymm

theorem eq_of_unix_eq {t t' : Civil} (h : t.IsValid) (h' : t'.IsValid) (heq : t.unix = t'.unix) :
    t = t' := by
  rcases before_or t t' with hbefore | rfl | hafter
  · exact absurd heq (unix_lt h h' hbefore).ne
  · rfl
  · exact absurd heq (unix_lt h' h hafter).ne'

end Civil

/-! ### The year of the era -/

/-- `yoe`. -/
def yearOfEra (doe : Int) : Int := (doe - doe / 1460 + doe / 36524 - doe / 146096) / 365

/-- A day of an era, by its century, the four years of the century, the year of them and the day
of that year. The last day of four years is that of a leap year. -/
structure Parts (doe century fours year day : Int) : Prop where
  eq : doe = 36524 * century + 1461 * fours + 365 * year + day
  centuries : 0 ≤ century ∧ century ≤ 3
  inCentury : 0 ≤ fours ∧ fours ≤ 24
  inFours : 0 ≤ year ∧ year ≤ 3
  inYear : 0 ≤ day ∧ day ≤ 365
  leap : day = 365 → year = 3 ∧ (fours = 24 → century = 3)

theorem exists_parts {doe : Int} (h : 0 ≤ doe ∧ doe < 146097) :
    ∃ century fours year day, Parts doe century fours year day := by
  obtain ⟨c, hc⟩ : ∃ c : Int, c = if doe = 146096 then 3 else doe / 36524 := ⟨_, rfl⟩
  obtain ⟨y, hy⟩ : ∃ y : Int, y =
      if (doe - 36524 * c) % 1461 = 1460 then 3 else (doe - 36524 * c) % 1461 / 365 := ⟨_, rfl⟩
  refine ⟨c, (doe - 36524 * c) / 1461, y, (doe - 36524 * c) % 1461 - 365 * y, ?_⟩
  split at hc <;> split at hy <;> constructor <;> omega

section Parts

variable {doe century fours year day : Int}

/-- The quotient by the days of four years without their leap day is one too great at most, and that
only late in a year. -/
theorem Parts.div_fourYears (h : Parts doe century fours year day) :
    ∃ q, doe / 1460 = 25 * century + fours + q ∧ (0 ≤ q ∧ q ≤ day) ∧ (day = 365 → q = 1) ∧
      q ≤ 1 := by
  obtain ⟨heq, hcentury, hfours, hyear, hday, hleap⟩ := h
  have hdoe : doe = 1460 * (25 * century + fours) + (24 * century + fours + 365 * year + day) := by
    omega
  refine ⟨(24 * century + fours + 365 * year + day) / 1460, ?_, ?_, ?_, ?_⟩
  · rw [hdoe, Int.mul_add_ediv_left _ _ (by decide)]
  all_goals omega

theorem Parts.div_century (h : Parts doe century fours year day) :
    doe / 36524 = century + doe / 146096 := by
  obtain ⟨heq, ⟨hlow, hhigh⟩, hfours, hyear, hday, hleap⟩ := h
  interval_cases century <;> omega

theorem Parts.yearOfEra (h : Parts doe century fours year day) :
    yearOfEra doe = 100 * century + 4 * fours + year := by
  obtain ⟨q, hq, hlow, hlast, hhigh⟩ := h.div_fourYears
  have hrest : doe - doe / 1460 + doe / 36524 - doe / 146096 =
      365 * (100 * century + 4 * fours + year) + (day - q) := by
    rw [hq, h.div_century, h.eq]
    ring
  have hday := h.inYear
  have hzero : (day - q) / 365 = 0 := by omega
  rw [HandlerUtil.yearOfEra, hrest, Int.mul_add_ediv_left _ _ (by decide), hzero, Int.add_zero]

theorem Parts.marchFirst (h : Parts doe century fours year day) :
    marchFirst (100 * century + 4 * fours + year) = doe - day := by
  obtain ⟨heq, hcentury, hfours, hyear, hday, hleap⟩ := h
  have hquarter : (100 * century + 4 * fours + year) / 4 = 25 * century + fours := by omega
  have hcents : (100 * century + 4 * fours + year) / 100 = century := by omega
  have hcycle : (100 * century + 4 * fours + year) / 400 = 0 := by omega
  rw [Calendar.marchFirst, hquarter, hcents, hcycle, heq]
  ring

end Parts

/-- The year of the era is the one that the day lies in. -/
theorem yearOfEra_spec {doe : Int} (h : 0 ≤ doe ∧ doe < 146097) :
    (0 ≤ yearOfEra doe ∧ yearOfEra doe ≤ 399) ∧ marchFirst (yearOfEra doe) ≤ doe ∧
      doe < marchFirst (yearOfEra doe + 1) := by
  obtain ⟨century, fours, year, day, hparts⟩ := exists_parts h
  rw [hparts.yearOfEra, marchFirst_succ, hparts.marchFirst]
  obtain ⟨heq, hcentury, hfours, hyear, hday, hleap⟩ := hparts
  refine ⟨by omega, by omega, ?_⟩
  by_cases hlast : day = 365
  · have hnext : IsLeap (100 * century + 4 * fours + year + 1) := by
      unfold IsLeap
      omega
    rw [if_pos hnext]
    omega
  · split <;> omega

/-! ### The month and the day -/

/-- A day of a year from March is a date. -/
theorem date_of_marchDay {year doy : Int} (hlow : 0 ≤ doy)
    (hhigh : marchFirst year + doy < marchFirst (year + 1)) {mp d mo y : Int}
    (hmp : mp = (5 * doy + 2) / 153) (hd : d = doy - (153 * mp + 2) / 5 + 1)
    (hmo : mo = if mp < 10 then mp + 3 else mp - 9) (hy : y = if mo ≤ 2 then year + 1 else year) :
    IsDate y mo d ∧ daysFromCivil y mo d = marchFirst year + doy - 719468 := by
  rw [marchFirst_succ] at hhigh
  have hrange : 0 ≤ mp ∧ mp ≤ 11 := by
    split at hhigh <;> omega
  have hmonth : marchMonth mo = mp ∧ marchYear y mo = year := by
    unfold marchMonth marchYear
    split at hmo <;> split at hy <;> split_ifs <;> omega
  constructor
  · obtain ⟨hfirst, hlast⟩ := hrange
    constructor
    · split at hmo <;> omega
    · unfold monthLength
      by_cases hfeb : mp = 11
      · obtain rfl : mo = 2 := by omega
        obtain rfl : y = year + 1 := by omega
        rw [if_pos rfl]
        split_ifs at hhigh ⊢ <;> omega
      · have hdays : doy ≤ 365 := by split at hhigh <;> omega
        interval_cases mp <;> simp at hmo <;> subst hmo <;> simp <;> omega
  · rw [daysFromCivil_eq, hmonth.2, marchDay, hmonth.1, hd]
    omega

/-! ### The conversion is exact -/

theorem i64_eq_some {x : Int} (h : -2 ^ 63 ≤ x ∧ x < 2 ^ 63) : i64 x = some x := if_pos h

theorem asU32_eq {x : Int} (h : 0 ≤ x ∧ x < 2 ^ 32) : (asU32 x : Int) = x := by
  unfold asU32
  omega

theorem eraOf_eq (days : Int) (h : 0 ≤ days ∧ days < 2 ^ 48) :
    eraOf days = some ((days + 719468) / 146097, (days + 719468) % 146097) := by
  obtain ⟨z, hz⟩ : ∃ z, z = days + 719468 := ⟨_, rfl⟩
  have hnonneg : 0 ≤ z := by omega
  have hdoe : z - z / 146097 * 146097 = z % 146097 := by omega
  simp only [eraOf, Option.bind_eq_bind, Option.pure_def]
  rw [← hz, i64_eq_some (by omega), Option.bind_some, if_pos hnonneg, Option.bind_some,
    Int.tdiv_eq_ediv_of_nonneg hnonneg, i64_eq_some (by omega), Option.bind_some,
    i64_eq_some (by omega), Option.bind_some, hdoe]

theorem yearOf_eq (era : Int) {doe : Int} (hera : 0 ≤ era ∧ era < 2 ^ 48)
    (hdoe : 0 ≤ doe ∧ doe < 146097) :
    yearOf era doe = some (yearOfEra doe + era * 400, doe - marchFirst (yearOfEra doe)) := by
  obtain ⟨⟨hlow, hhigh⟩, -⟩ := yearOfEra_spec hdoe
  have hyoe : (doe - doe / 1460 + doe / 36524 - doe / 146096) / 365 = yearOfEra doe := rfl
  simp only [yearOf, Option.bind_eq_bind, Option.pure_def]
  rw [Int.tdiv_eq_ediv_of_nonneg hdoe.1, Int.tdiv_eq_ediv_of_nonneg hdoe.1,
    Int.tdiv_eq_ediv_of_nonneg hdoe.1, i64_eq_some (by omega), Option.bind_some,
    i64_eq_some (by omega), Option.bind_some, i64_eq_some (by omega), Option.bind_some,
    Int.tdiv_eq_ediv_of_nonneg (by omega), hyoe]
  obtain ⟨yoe, heq⟩ : ∃ yoe, yoe = yearOfEra doe := ⟨_, rfl⟩
  rw [← heq] at hlow hhigh ⊢
  have hstart : 365 * yoe + yoe / 4 - yoe / 100 = marchFirst yoe := by
    unfold marchFirst
    omega
  rw [i64_eq_some (by omega), Option.bind_some, i64_eq_some (by omega), Option.bind_some,
    i64_eq_some (by omega), Option.bind_some, Int.tdiv_eq_ediv_of_nonneg hlow,
    Int.tdiv_eq_ediv_of_nonneg hlow, i64_eq_some (by omega), Option.bind_some,
    i64_eq_some (by omega), Option.bind_some, i64_eq_some (by omega), Option.bind_some, hstart]

theorem dateOf_eq (year doy : Int) (hyear : -2 ^ 48 ≤ year ∧ year < 2 ^ 48) (hlow : 0 ≤ doy)
    (hhigh : marchFirst year + doy < marchFirst (year + 1)) :
    ∃ y mo d, dateOf year doy = some (y, mo, d) ∧ IsDate y mo d ∧
      daysFromCivil y mo d = marchFirst year + doy - 719468 := by
  have hdays : doy ≤ 365 := by
    rw [marchFirst_succ] at hhigh
    split at hhigh <;> omega
  obtain ⟨mp, hmp⟩ : ∃ mp, mp = (5 * doy + 2) / 153 := ⟨_, rfl⟩
  obtain ⟨d, hd⟩ : ∃ d, d = doy - (153 * mp + 2) / 5 + 1 := ⟨_, rfl⟩
  obtain ⟨mo, hmo⟩ : ∃ mo, mo = if mp < 10 then mp + 3 else mp - 9 := ⟨_, rfl⟩
  obtain ⟨y, hy⟩ : ∃ y, y = if mo ≤ 2 then year + 1 else year := ⟨_, rfl⟩
  obtain ⟨hdate, hnumber⟩ := date_of_marchDay hlow hhigh hmp hd hmo hy
  have hmonth := asU32_eq (x := mo) (by have := hdate.inYear; omega)
  have hday : (asU32 d : Int) = d := asU32_eq (by omega)
  refine ⟨y, asU32 mo, asU32 d, ?_, by rwa [hmonth, hday], by rwa [hmonth, hday]⟩
  have hsmall : asU32 mo ≤ 2 ↔ mo ≤ 2 := by omega
  have hyears : (if asU32 mo ≤ 2 then (i64 (year + 1)).bind fun y => some (y, asU32 mo, asU32 d)
      else (some year).bind fun y => some (y, asU32 mo, asU32 d)) =
        some (y, asU32 mo, asU32 d) := by
    rw [hy]
    by_cases hnext : mo ≤ 2
    · rw [if_pos hnext, if_pos (hsmall.mpr hnext), i64_eq_some (by omega), Option.bind_some]
    · rw [if_neg hnext, if_neg (mt hsmall.mp hnext), Option.bind_some]
  simp only [dateOf, Option.bind_eq_bind, Option.pure_def]
  rw [i64_eq_some (by omega), Option.bind_some, i64_eq_some (by omega), Option.bind_some,
    Int.tdiv_eq_ediv_of_nonneg (by omega), ← hmp, i64_eq_some (by omega), Option.bind_some,
    i64_eq_some (by omega), Option.bind_some, Int.tdiv_eq_ediv_of_nonneg (by omega),
    i64_eq_some (by omega), Option.bind_some, i64_eq_some (by omega), Option.bind_some, ← hd]
  by_cases hten : mp < 10
  · rw [if_pos hten] at hmo ⊢
    rw [← hmo, i64_eq_some (by omega), Option.bind_some, hyears]
  · rw [if_neg hten] at hmo ⊢
    rw [← hmo, i64_eq_some (by omega), Option.bind_some, hyears]

/-- The conversion gives the date and the time of the second. -/
theorem civilFromUnix_spec (secs : UInt64) :
    ∃ t, civilFromUnix secs = some t ∧ t.IsValid ∧ t.unix = secs.toNat := by
  have hsecs := secs.toNat_lt
  obtain ⟨n, hn⟩ : ∃ n, n = secs.toNat := ⟨_, rfl⟩
  rw [← hn] at hsecs
  have hdays : asI64 (n / 86400) = (n / 86400 : Nat) := if_pos (by omega)
  have hrem : asU32 (n % 86400 : Nat) = n % 86400 := by
    unfold asU32
    omega
  obtain ⟨z, hz⟩ : ∃ z : Int, z = (n / 86400 : Nat) + 719468 := ⟨_, rfl⟩
  have hera := eraOf_eq (n / 86400 : Nat) (by omega)
  rw [← hz] at hera
  have hdoe : 0 ≤ z % 146097 ∧ z % 146097 < 146097 := by omega
  obtain ⟨⟨hfirst, hlast⟩, hbegin, hend⟩ := yearOfEra_spec hdoe
  have hyear := yearOf_eq (z / 146097) (by omega) hdoe
  obtain ⟨yoe, hyoe⟩ : ∃ yoe, yoe = yearOfEra (z % 146097) := ⟨_, rfl⟩
  rw [← hyoe] at hfirst hlast hbegin hend hyear
  have hshift (y : Int) :
      marchFirst (y + z / 146097 * 400) = marchFirst y + z / 146097 * 146097 := by
    unfold marchFirst
    omega
  have hnext : yoe + z / 146097 * 400 + 1 = yoe + 1 + z / 146097 * 400 := by ring
  obtain ⟨y, mo, d, hdate, hvalid, hnumber⟩ := dateOf_eq (yoe + z / 146097 * 400)
    (z % 146097 - marchFirst yoe) (by omega) (by omega)
    (by rw [hnext, hshift, hshift]; omega)
  rw [hshift] at hnumber
  have htime : n % 86400 / 3600 < 24 ∧ n % 86400 % 3600 / 60 < 60 ∧ n % 86400 % 60 < 60 := by
    omega
  refine ⟨⟨y, mo, d, n % 86400 / 3600, n % 86400 % 3600 / 60, n % 86400 % 60⟩, ?_,
    ⟨hvalid, htime⟩, ?_⟩
  · simp only [civilFromUnix, ← hn, hdays, hrem, hera, hyear, hdate, Option.bind_eq_bind,
      Option.bind_some, Option.pure_def]
  · simp only [Civil.unix, hnumber]
    omega

/-- Civil dates are exact: each count of seconds has a date of the calendar and a time of the day,
with no overflow on the way; each date and time of those counts is found; a later second has a later
date or time. -/
theorem civilFromUnix_exact :
    (∀ secs, ∃ t, civilFromUnix secs = some t ∧ t.IsValid ∧ t.unix = secs.toNat) ∧
      (∀ t secs, t.IsValid → t.unix = secs.toNat → civilFromUnix secs = some t) ∧
      ∀ secs secs' t t', civilFromUnix secs = some t → civilFromUnix secs' = some t' →
        (t.Before t' ↔ secs < secs') := by
  refine ⟨civilFromUnix_spec, fun t secs hvalid hunix => ?_, fun secs secs' t t' h h' => ?_⟩
  · obtain ⟨t', hresult, hvalid', hunix'⟩ := civilFromUnix_spec secs
    rw [hresult, Civil.eq_of_unix_eq hvalid hvalid' (hunix.trans hunix'.symm)]
  · obtain ⟨t₁, hresult, hvalid, hunix⟩ := civilFromUnix_spec secs
    obtain ⟨t₂, hresult', hvalid', hunix'⟩ := civilFromUnix_spec secs'
    obtain rfl := Option.some.inj (h.symm.trans hresult)
    obtain rfl := Option.some.inj (h'.symm.trans hresult')
    rw [Civil.before_iff hvalid hvalid', hunix, hunix', Int.ofNat_lt, UInt64.lt_iff_toNat_lt]

example : civilFromUnix 951782400 = some ⟨2000, 2, 29, 0, 0, 0⟩ := by decide

end AutomatisedPipeline.HandlerUtil
