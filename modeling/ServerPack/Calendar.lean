import ServerPack.Text.Basic

/-!
Instants and calendar dates. An instant is a count of seconds since the beginning of 1970 in
universal time, the nanoseconds after that second, and the number of seconds by which local time is
ahead. `LocalTime.of` gives its date in the Gregorian calendar, continued without end in both
directions, and its time of day. Years are counted from March inside, so that the leap day is the
last of its year.
-/

namespace ServerPack

/-- A reading of the clock together with the offset of local time. A billion nanoseconds or more are
a leap second: the second before it goes on. -/
structure Instant where
  seconds : Int
  nanoseconds : Nat
  offset : Int
  deriving DecidableEq

/-- A local date and time of day. -/
structure LocalTime where
  year : Int
  month : Nat
  day : Nat
  hour : Nat
  minute : Nat
  second : Nat
  deriving DecidableEq

namespace Calendar

/-- The days of 400 years, after which the calendar repeats. -/
def daysOfCycle : Int := 146097

/-- The year of the cycle, counted from March, of a day of the cycle. -/
def yearOfCycle (day : Int) : Int := (day - day / 1460 + day / 36524 - day / 146096) / 365

/-- The days of a cycle before a year of it. -/
def daysBeforeYear (year : Int) : Int := 365 * year + year / 4 - year / 100

/-- The month, counted from March, of a day of the year. -/
def monthOfYear (day : Int) : Int := (5 * day + 2) / 153

/-- The days of the year before a month, both counted from March. -/
def daysBeforeMonth (month : Int) : Int := (153 * month + 2) / 5

/-- Year, month and day of the month of a day, counted from the first of January 1970. -/
def dateOf (day : Int) : Int × Nat × Nat :=
  let shifted := day + 719468
  let dayOfCycle := shifted % daysOfCycle
  let year := yearOfCycle dayOfCycle
  let dayOfYear := dayOfCycle - daysBeforeYear year
  let month := monthOfYear dayOfYear
  let early := 10 ≤ month
  (year + 400 * (shifted / daysOfCycle) + (if early then 1 else 0),
    (if early then month - 9 else month + 3).toNat,
    (dayOfYear - daysBeforeMonth month + 1).toNat)

end Calendar

/-- The local time of an instant. A leap second shows as the sixty-first second of its minute. -/
def LocalTime.of (instant : Instant) : LocalTime :=
  let seconds := instant.seconds + instant.offset
  let (year, month, day) := Calendar.dateOf (seconds / 86400)
  let time := (seconds % 86400).toNat
  { year, month, day
    hour := time / 3600
    minute := time / 60 % 60
    second := time % 60 + instant.nanoseconds / 1000000000 }

example : LocalTime.of ⟨1714571110, 0, 0⟩ = ⟨2024, 5, 1, 13, 45, 10⟩ := by decide
example : LocalTime.of ⟨-1, 0, 0⟩ = ⟨1969, 12, 31, 23, 59, 59⟩ := by decide

end ServerPack
