/-!
# Timestamps

A moment in UTC, given by the milliseconds since the start of 1970, as a date and a time of day in
the form `2026-01-01T00:00:00.000Z`.
-/

namespace WaylandDoc.Timestamp

/-- The number with zeros before it up to `width` digits. -/
def padded (width n : Nat) : String :=
  let digits := Nat.toDigits 10 n
  .ofList (List.replicate (width - digits.length) '0' ++ digits)

/-- Year, month and day. Years are counted from March, so that a leap day ends one, in eras of 400
years of equal length. -/
def date (days : Nat) : Nat × Nat × Nat :=
  let shifted := days + 719468
  let day := shifted % 146097
  let year := (day - day / 1460 + day / 36524 - day / 146096) / 365
  let day := day - (365 * year + year / 4 - year / 100)
  let month := (5 * day + 2) / 153
  let day := day - (153 * month + 2) / 5 + 1
  let year := year + shifted / 146097 * 400
  if month < 10 then (year, month + 3, day) else (year + 1, month - 9, day)

def text (milliseconds : Nat) : String :=
  let seconds := milliseconds / 1000
  let (year, month, day) := date (seconds / 86400)
  let hour := seconds / 3600 % 24
  let minute := seconds / 60 % 60
  s!"{padded 4 year}-{padded 2 month}-{padded 2 day}T{padded 2 hour}:{padded 2 minute}:" ++
    s!"{padded 2 (seconds % 60)}.{padded 3 (milliseconds % 1000)}Z"

end WaylandDoc.Timestamp
