import ServerPack.Calendar

/-!
Names of backup archives. An archive is named for the local time at which it was taken, from the
year down to the second, so that names sort as times do; of a year outside 0 to 9999 the sign is
written.
-/

namespace ServerPack.Archive

/-- A number with leading zeros up to a number of digits. -/
def padded (width n : Nat) : Text :=
  let digits := Nat.toDigits 10 n
  List.replicate (width - digits.length) '0' ++ digits

/-- A year with at least four digits, and a sign unless four digits are enough for all such
years. -/
def yearText (year : Int) : Text :=
  let digits := padded 4 year.natAbs
  if 0 ≤ year ∧ year ≤ 9999 then digits
  else if year < 0 then '-' :: digits
  else '+' :: digits

/-- The name of a backup archive taken at an instant. -/
def nameAt (now : Instant) : Text :=
  let time := LocalTime.of now
  yearText time.year ++ '-' :: padded 2 time.month ++ '-' :: padded 2 time.day ++ '-' :: padded 2 time.hour
    ++ ':' :: padded 2 time.minute ++ ':' :: padded 2 time.second ++ ".zip".toList

end ServerPack.Archive
