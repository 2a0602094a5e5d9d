import Mathlib.Data.Int.SuccPred
import Mathlib.Data.Prod.Lex
import Mathlib.Order.Monotone.Basic
import Mathlib.Tactic.IntervalCases
import ServerPack.Calendar

/-!
The calendar is the Gregorian one and local times follow it. `following` gives the date of the next
day by the lengths of the months and the rule of leap years, and `dateOf` goes from day to day in
this way (`dateOf_succ`), so each day has a date of the calendar (`isDate_dateOf`) and later days
have later dates (`inOrder_dateOf_lt`). With a fixed offset local times grow with the seconds
(`LocalTime.units_lt`). A day is looked up where it stands in the years that begin with March
(`Stands`).
-/

namespace ServerPack

namespace Calendar

/-- The years that have a 29th of February. -/
def IsLeapYear (year : Int) : Prop := 4 ∣ year ∧ (100 ∣ year → 400 ∣ year)

instance (year : Int) : Decidable (IsLeapYear year) := inferInstanceAs (Decidable (_ ∧ _))

/-- The number of days of a month of a year. -/
def daysOfMonth (year : Int) (month : Nat) : Nat :=
  if month = 2 then if IsLeapYear year then 29 else 28
  else if month ∈ [4, 6, 9, 11] then 30 else 31

theorem daysOfMonth_le (year : Int) (month : Nat) : daysOfMonth year month ≤ 31 := by
  rw [daysOfMonth]
  repeat' split
  all_goals decide

/-- A date that the calendar has. -/
def IsDate : Int × Nat × Nat → Prop
  | (year, month, day) => 1 ≤ month ∧ month ≤ 12 ∧ 1 ≤ day ∧ day ≤ daysOfMonth year month

/-- The date of the day after a date. -/
def following : Int × Nat × Nat → Int × Nat × Nat
  | (year, month, day) =>
    if day < daysOfMonth year month then (year, month, day + 1)
    else if month < 12 then (year, month + 1, 1)
    else (year + 1, 1, 1)

theorem following_of_lt {year : Int} {month day : Nat} (h : day < daysOfMonth year month) :
    following (year, month, day) = (year, month, day + 1) := if_pos h

theorem following_of_month {year : Int} {month day : Nat} (h : daysOfMonth year month ≤ day)
    (hmonth : month < 12) :
    following (year, month, day) = (year, month + 1, 1) := by
  rw [following, if_neg (not_lt.2 h), if_pos hmonth]

theorem following_of_year {year : Int} {day : Nat} (h : daysOfMonth year 12 ≤ day) :
    following (year, 12, day) = (year + 1, 1, 1) := by
  rw [following, if_neg (not_lt.2 h), if_neg (by decide)]

/-! The years of a cycle. -/

/-- The year never falls from one day to the next, so the first days of the years and the days
before them settle it. -/
theorem yearOfCycle_le_yearOfCycle {day day' : Int} (h : day ≤ day') :
    yearOfCycle day ≤ yearOfCycle day' := by
  have hmonotone : Monotone yearOfCycle := monotone_int_of_le_succ fun day =>
    Int.ediv_le_ediv (by decide) (by omega)
  exact hmonotone h

theorem yearOfCycle_firstDay : ∀ year : Fin 400, yearOfCycle (daysBeforeYear year) = year := by
    decide +kernel

theorem yearOfCycle_dayBefore : ∀ year : Fin 400, 0 < year.val →
    yearOfCycle (daysBeforeYear year - 1) < year := by
  decide +kernel

theorem le_yearOfCycle_iff {year day : Int} (hlow : 0 ≤ year) (hhigh : year < 400) (hday : 0 ≤ day) :
    year ≤ yearOfCycle day ↔ daysBeforeYear year ≤ day := by
  obtain ⟨year, rfl⟩ := Int.eq_ofNat_of_zero_le hlow
  have hfirst := yearOfCycle_firstDay ⟨year, by omega⟩
  have hbefore := yearOfCycle_dayBefore ⟨year, by omega⟩
  refine ⟨fun h => ?_, fun h => hfirst.symm.trans_le (yearOfCycle_le_yearOfCycle h)⟩
  by_contra hnot
  have hearly : yearOfCycle day ≤ yearOfCycle (daysBeforeYear year - 1) :=
    yearOfCycle_le_yearOfCycle (by omega)
  rcases Nat.eq_zero_or_pos year with rfl | hpos
  · exact hnot (by simpa [daysBeforeYear] using hday)
  · exact absurd (hearly.trans_lt (hbefore hpos)) (not_lt.2 h)

/-- The last year of a cycle has the leap day that `daysBeforeYear` leaves out. -/
theorem yearOfCycle_eq {year day : Int} (hlow : 0 ≤ year) (hhigh : year < 400)
    (hday : daysBeforeYear year ≤ day)
    (hnext : day < if year < 399 then daysBeforeYear (year + 1) else daysOfCycle) :
    yearOfCycle day = year := by
  have hnonneg : 0 ≤ day := by
    simp only [daysBeforeYear] at hday
    omega
  refine le_antisymm ?_ ((le_yearOfCycle_iff hlow hhigh hnonneg).2 hday)
  split at hnext
  · have hnot := mt (le_yearOfCycle_iff (by omega) (by omega) hnonneg).1 (not_le.2 hnext)
    omega
  · have hlast : yearOfCycle day ≤ yearOfCycle 146096 :=
      yearOfCycle_le_yearOfCycle (Int.le_sub_one_of_lt hnext)
    have hend : yearOfCycle 146096 = 399 := by decide
    omega

/-! The years that begin with March. -/

/-- The days from the first of March of year 0 to the first of March of a year. -/
def daysToMarch (year : Int) : Int := 365 * year + year / 4 - year / 100 + year / 400

theorem daysToMarch_succ (year : Int) :
    daysToMarch (year + 1) = daysToMarch year + if IsLeapYear (year + 1) then 366 else 365 := by
  by_cases h : IsLeapYear (year + 1)
  · rw [if_pos h]
    simp only [IsLeapYear, daysToMarch] at *
    omega
  · rw [if_neg h]
    simp only [IsLeapYear, daysToMarch] at *
    omega

theorem daysToMarch_succ_bounds (year : Int) :
    daysToMarch year + 365 ≤ daysToMarch (year + 1) ∧ daysToMarch (year + 1) ≤ daysToMarch year + 366 := by
  rw [daysToMarch_succ]
  split <;> omega

theorem daysToMarch_cycle {year : Int} (hlow : 0 ≤ year) (hhigh : year < 400) (cycle : Int) :
    daysToMarch (year + 400 * cycle) = daysBeforeYear year + daysOfCycle * cycle := by
  simp only [daysToMarch, daysBeforeYear, daysOfCycle]
  omega

theorem daysToMarch_cycle_succ {year : Int} (hlow : 0 ≤ year) (hhigh : year < 400) (cycle : Int) :
    daysToMarch (year + 400 * cycle + 1) =
      (if year < 399 then daysBeforeYear (year + 1) else daysOfCycle) + daysOfCycle * cycle := by
  split
  · next h => rw [← daysToMarch_cycle (by omega) (by omega), Int.add_right_comm]
  · next h =>
    have hyear : year + 400 * cycle + 1 = 0 + 400 * (cycle + 1) := by omega
    rw [hyear, daysToMarch_cycle (by decide) (by decide)]
    simp only [daysBeforeYear, daysOfCycle]
    omega

theorem exists_year (day : Int) : ∃ year, daysToMarch year ≤ day ∧ day < daysToMarch (year + 1) := by
  induction day using Int.induction_on with
  | zero => exact ⟨0, by decide, by decide⟩
  | succ day ih =>
      obtain ⟨year, hlow, hhigh⟩ := ih
      rcases lt_or_ge (day + 1 : Int) (daysToMarch (year + 1)) with hsame | hnext
      · exact ⟨year, by omega, hsame⟩
      · have hlength := daysToMarch_succ_bounds (year + 1)
        exact ⟨year + 1, hnext, by omega⟩
  | pred day ih =>
      obtain ⟨year, hlow, hhigh⟩ := ih
      rcases le_or_gt (daysToMarch year) (-day - 1 : Int) with hsame | hprevious
      · exact ⟨year, hsame, by omega⟩
      · have hlength := daysToMarch_succ_bounds (year - 1)
        rw [Int.sub_add_cancel] at hlength
        exact ⟨year - 1, by omega, by rwa [Int.sub_add_cancel]⟩

/-- The year from January that a month of a year from March lies in. -/
def civilYear (year month : Int) : Int := year + if 10 ≤ month then 1 else 0

/-- The number of a month in its year from January. -/
def civilMonth (month : Int) : Nat := (if 10 ≤ month then month - 9 else month + 3).toNat

/-- The date of a day of a month of a year from March, where month and day are counted from 0. -/
def dateAt (year month rest : Int) : Int × Nat × Nat :=
    (civilYear year month, civilMonth month, (rest + 1).toNat)

/-- After the last day of a month before February comes the next month. -/
theorem following_last {year month : Int} {day : Nat} (hlow : 0 ≤ month) (hhigh : month < 11)
    (h : daysOfMonth (civilYear year month) (civilMonth month) ≤ day) :
    following (civilYear year month, civilMonth month, day) =
      (civilYear year (month + 1), civilMonth (month + 1), 1) := by
  rcases eq_or_ne month 9 with rfl | hmonth
  · have hdecember : civilMonth 9 = 12 := rfl
    rw [hdecember] at h ⊢
    rw [following_of_year h]
    simp [civilYear, civilMonth]
  · have hyear : civilYear year (month + 1) = civilYear year month := by
      simp only [civilYear]
      omega
    have hnext : civilMonth (month + 1) = civilMonth month + 1 := by
      simp only [civilMonth]
      omega
    rw [following_of_month h (by rw [civilMonth]; omega), hyear, hnext]

theorem following_february {year : Int} {day : Nat}
    (h : daysOfMonth (civilYear year 11) (civilMonth 11) ≤ day) :
    following (civilYear year 11, civilMonth 11, day) = (civilYear (year + 1) 0, civilMonth 0, 1) := by
  rw [following_of_month h (by decide)]
  simp [civilYear, civilMonth]

theorem dateOf_cycle {day : Int} (hlow : 0 ≤ day) (hhigh : day < daysOfCycle) (cycle : Int) :
    dateOf (day + daysOfCycle * cycle - 719468) =
      dateAt (yearOfCycle day + 400 * cycle) (monthOfYear (day - daysBeforeYear (yearOfCycle day)))
        (day - daysBeforeYear (yearOfCycle day) - daysBeforeMonth
          (monthOfYear (day - daysBeforeYear (yearOfCycle day)))) := by
  have hcycle : (day + daysOfCycle * cycle) / daysOfCycle = cycle := by
    rw [Int.add_mul_ediv_left _ _ (by decide), Int.ediv_eq_zero_of_lt hlow hhigh, Int.zero_add]
  have hday : (day + daysOfCycle * cycle) % daysOfCycle = day := by
    rw [Int.add_mul_emod_self_left, Int.emod_eq_of_lt hlow hhigh]
  simp only [dateOf, Int.sub_add_cancel, hcycle, hday, dateAt, civilYear, civilMonth]

/-- Where a day stands, counted from the first of March of year 0: in a year that begins with March,
in a month of it and on a day of that month, both counted from 0. The last month, February, ends
with its year. -/
structure Stands (day year month rest : Int) : Prop where
  month_nonneg : 0 ≤ month
  month_le : month ≤ 11
  rest_nonneg : 0 ≤ rest
  inMonth : daysBeforeMonth month + rest < daysBeforeMonth (month + 1)
  inYear : day < daysToMarch (year + 1)
  day_eq : day = daysToMarch year + daysBeforeMonth month + rest

theorem exists_stands (day : Int) : ∃ year month rest, Stands day year month rest := by
  obtain ⟨year, hlow, hhigh⟩ := exists_year day
  have hlength := daysToMarch_succ_bounds year
  refine ⟨year, monthOfYear (day - daysToMarch year),
    day - daysToMarch year - daysBeforeMonth (monthOfYear (day - daysToMarch year)), ?_, ?_, ?_, ?_,
      hhigh, by omega⟩
  all_goals
    simp only [monthOfYear, daysBeforeMonth]
    omega

namespace Stands

variable {day year month rest : Int}

theorem dateOf_eq (h : Stands day year month rest) : dateOf (day - 719468) = dateAt year month rest := by
  obtain ⟨hmonth, -, hrest, hin, hyear, rfl⟩ := h
  obtain ⟨cycle, place, hlow, hhigh, rfl⟩ : ∃ cycle place, 0 ≤ place ∧ place < 400 ∧
      year = place + 400 * cycle :=
    ⟨year / 400, year % 400, by omega, by omega, by omega⟩
  have hmonths : 0 ≤ daysBeforeMonth month := by
    simp only [daysBeforeMonth]
    omega
  have hyears : 0 ≤ daysBeforeYear place := by
    simp only [daysBeforeYear]
    omega
  rw [daysToMarch_cycle hlow hhigh, daysToMarch_cycle_succ hlow hhigh] at hyear
  have hnext : daysBeforeYear place + (daysBeforeMonth month + rest) <
      if place < 399 then daysBeforeYear (place + 1) else daysOfCycle := by omega
  have hend : (if place < 399 then daysBeforeYear (place + 1) else daysOfCycle) ≤ daysOfCycle := by
    simp only [daysBeforeYear, daysOfCycle]
    split <;> omega
  have hday : daysToMarch (place + 400 * cycle) + daysBeforeMonth month + rest =
      daysBeforeYear place + (daysBeforeMonth month + rest) + daysOfCycle * cycle := by
    rw [daysToMarch_cycle hlow hhigh]
    omega
  have hmonthOf : monthOfYear (daysBeforeMonth month + rest) = month := by
    simp only [monthOfYear, daysBeforeMonth] at *
    omega
  rw [hday, dateOf_cycle (by omega) (by omega), yearOfCycle_eq hlow hhigh (by omega) hnext,
    add_sub_cancel_left, hmonthOf, add_sub_cancel_left]

theorem daysOfMonth_eq (h : Stands day year month rest) :
    (daysOfMonth (civilYear year month) (civilMonth month) : Int) =
      min (daysBeforeMonth (month + 1))
        (daysToMarch (year + 1) - daysToMarch year) - daysBeforeMonth month := by
  obtain ⟨hlow, hhigh, -⟩ := h
  rw [daysToMarch_succ, add_sub_cancel_left]
  by_cases hleap : IsLeapYear (year + 1) <;>
    interval_cases month <;> simp [civilYear, civilMonth, daysOfMonth, daysBeforeMonth, hleap]

/-- The next day stands on the next day of its month, in the next month or in the next year. -/
theorem succ (h : Stands day year month rest) :
    ∃ year' month' rest', Stands (day + 1) year' month' rest' ∧
      following (dateAt year month rest) = dateAt year' month' rest' := by
  have hdays := h.daysOfMonth_eq
  have hlength := daysToMarch_succ_bounds year
  obtain ⟨hlow, hhigh, hrest, hin, hyear, hday⟩ := h
  rcases lt_or_ge (rest + 1).toNat (daysOfMonth (civilYear year month)
    (civilMonth month)) with hsame | hlast
  · refine ⟨year, month, rest + 1, ⟨hlow, hhigh, by omega, by omega, by omega, by omega⟩, ?_⟩
    have hnext : (rest + 1 + 1).toNat = (rest + 1).toNat + 1 := by omega
    rw [dateAt, following_of_lt hsame, dateAt, hnext]
  rcases hhigh.lt_or_eq with hmonth | rfl
  · have hnext : daysBeforeMonth (month + 1) < daysBeforeMonth (month + 1 + 1) ∧
        daysBeforeMonth (month + 1) ≤ 337 := by
      simp only [daysBeforeMonth]
      omega
    exact ⟨year, month + 1, 0, ⟨by omega, by omega, le_rfl, by omega, by omega, by omega⟩,
      following_last hlow hmonth hlast⟩
  · have hnext := daysToMarch_succ_bounds (year + 1)
    have hfebruary : daysBeforeMonth (11 + 1) = 367 := by decide
    have hmarch : daysBeforeMonth 0 = 0 := by decide
    exact ⟨year + 1, 0, 0, ⟨le_rfl, by decide, le_rfl, by decide, by omega, by omega⟩,
      following_february hlast⟩

end Stands

/-! Dates from day to day. -/

theorem dateOf_succ (day : Int) : dateOf (day + 1) = following (dateOf day) := by
  obtain ⟨year, month, rest, h⟩ := exists_stands (day + 719468)
  obtain ⟨year', month', rest', h', hfollowing⟩ := h.succ
  have hday := h.dateOf_eq
  have hnext := h'.dateOf_eq
  rw [Int.add_sub_cancel] at hday
  rw [Int.add_right_comm, Int.add_sub_cancel] at hnext
  rw [hday, hnext, hfollowing]

-- The day from which the step leads to all others.
example : dateOf 0 = (1970, 1, 1) := by decide

theorem isDate_dateOf (day : Int) : IsDate (dateOf day) := by
  obtain ⟨year, month, rest, h⟩ := exists_stands (day + 719468)
  have hdays := h.daysOfMonth_eq
  have hday := h.dateOf_eq
  rw [Int.add_sub_cancel] at hday
  rw [hday]
  obtain ⟨hlow, hhigh, hrest, hin, hyear, hplace⟩ := h
  have hmonth : 1 ≤ civilMonth month ∧ civilMonth month ≤ 12 := by
    rw [civilMonth]
    omega
  exact ⟨hmonth.1, hmonth.2, by omega, by omega⟩

/-- A date in the order of dates: the year counts first and the day of the month last. -/
def inOrder (date : Int × Nat × Nat) : Int ×ₗ Nat ×ₗ Nat := toLex (date.1, toLex date.2)

theorem inOrder_lt_following (date : Int × Nat × Nat) : inOrder date < inOrder (following date) := by
  obtain ⟨year, month, day⟩ := date
  simp only [inOrder, following, Prod.Lex.toLex_lt_toLex]
  repeat' split
  all_goals simp

theorem inOrder_dateOf_lt {day day' : Int} (h : day < day') :
    inOrder (dateOf day) < inOrder (dateOf day') := by
  have hstep (day : Int) : inOrder (dateOf day) < inOrder (dateOf (day + 1)) := by
    rw [dateOf_succ]
    exact inOrder_lt_following _
  have hincreasing : StrictMono (inOrder ∘ dateOf) := strictMono_int_of_lt_succ hstep
  exact hincreasing h

end Calendar

namespace LocalTime

/-- The parts of a local time in the order of times: the year counts first and the second last. -/
def units (time : LocalTime) : Int ×ₗ Nat ×ₗ Nat ×ₗ Nat ×ₗ Nat ×ₗ Nat :=
  toLex (time.year, toLex (time.month, toLex
    (time.day, toLex (time.hour, toLex (time.minute, time.second)))))

variable {now now' : Instant}

theorem units_lt (hoffset : now.offset = now'.offset) (hnano : now.nanoseconds < 1000000000)
    (h : now.seconds < now'.seconds) : (of now).units < (of now').units := by
  have hlocal : now.seconds + now.offset < now'.seconds + now'.offset := by omega
  have hwhole : now.nanoseconds / 1000000000 = 0 := Nat.div_eq_of_lt hnano
  simp only [units, of, Prod.Lex.toLex_lt_toLex, hwhole, Nat.add_zero]
  generalize now.seconds + now.offset = seconds at *
  generalize now'.seconds + now'.offset = seconds' at *
  have hdays : seconds / 86400 ≤ seconds' / 86400 := Int.ediv_le_ediv (by decide) hlocal.le
  rcases hdays.lt_or_eq with hlater | hsame
  · have hdate := Calendar.inOrder_dateOf_lt hlater
    simp only [Calendar.inOrder, Prod.Lex.toLex_lt_toLex] at hdate
    tauto
  · rw [hsame]
    refine .inr ⟨rfl, .inr ⟨rfl, .inr ⟨rfl, ?_⟩⟩⟩
    omega

theorem of_eq_iff (hoffset : now.offset = now'.offset) (hnano : now.nanoseconds < 1000000000)
    (hnano' : now'.nanoseconds < 1000000000) : of now = of now' ↔ now.seconds = now'.seconds := by
  refine ⟨fun h => ?_, fun h => by rw [of, of, h, hoffset, Nat.div_eq_of_lt hnano, Nat.div_eq_of_lt hnano']⟩
  rcases lt_trichotomy now.seconds now'.seconds with hbefore | hsame | hafter
  · exact absurd (units_lt hoffset hnano hbefore) (h ▸ lt_irrefl _)
  · exact hsame
  · exact absurd (units_lt hoffset.symm hnano' hafter) (h ▸ lt_irrefl _)

end LocalTime

end ServerPack
