import ConfigScript.Toml
/-!
# Dates and times

A moment is a date, a time of day, or a date and a time with a blank or a `T` between them and
possibly an offset. Each reader takes a moment off the front of a text.
-/

namespace ConfigScript.Moment

/-- Exactly `n` digits with a value from `low` to `high`. -/
def digits? (n low high : Nat) (t : Text) : Option (Text × Text) :=
  let digits := t.take n
  let value := Text.digitsValue digits
  if digits.length = n && digits.all Char.isDigit && low ≤ value && value ≤ high then
    some (digits, t.drop n)
  else none

def isLeapYear (year : Nat) : Bool := year % 4 = 0 && (year % 100 ≠ 0 || year % 400 = 0)

def daysIn (year month : Nat) : Nat :=
  if month = 2 then (if isLeapYear year then 29 else 28)
  else if month = 4 || month = 6 || month = 9 || month = 11 then 30
  else 31

/-- A date: year, month and day. -/
def date? (t : Text) : Option (Text × Text) := do
  let (year, t) ← digits? 4 0 9999 t
  let t ← Text.dropHead? ['-'] t
  let (month, t) ← digits? 2 1 12 t
  let t ← Text.dropHead? ['-'] t
  let (day, t) ← digits? 2 1 (daysIn (Text.digitsValue year) (Text.digitsValue month)) t
  return (year ++ '-' :: month ++ '-' :: day, t)

/-- How many digits of a fraction count. -/
def fractionDigits : Nat := 9

/-- A fraction in normal form. -/
def normalFraction (digits : Text) : Text :=
  let kept := ((digits.take fractionDigits).reverse.dropWhile (· = '0')).reverse
  if kept.isEmpty then [] else '.' :: kept

/-- The fraction of a second, which may be left out. -/
def fraction (t : Text) : Text × Text :=
  match t with
  | '.' :: rest =>
    let digits := rest.takeWhile Char.isDigit
    if digits.isEmpty then ([], t) else (normalFraction digits, rest.drop digits.length)
  | _ => ([], t)

/-- A time of day; a minute may have a leap second. -/
def time? (t : Text) : Option (Text × Text) := do
  let (hour, t) ← digits? 2 0 23 t
  let t ← Text.dropHead? [':'] t
  let (minute, t) ← digits? 2 0 59 t
  let t ← Text.dropHead? [':'] t
  let (second, t) ← digits? 2 0 60 t
  let (part, t) := fraction t
  return (hour ++ ':' :: minute ++ ':' :: second ++ part, t)

/-- Hours and minutes behind a sign. -/
def distance? (t : Text) : Option (Text × Text) := do
  let (hour, t) ← digits? 2 0 23 t
  let t ← Text.dropHead? [':'] t
  let (minute, t) ← digits? 2 0 59 t
  return (hour ++ ':' :: minute, t)

/-- An offset; the one of no length is positive. -/
def offset? : Text → Option (Text × Text)
  | '+' :: t => do
    let (d, t) ← distance? t
    return ('+' :: d, t)
  | '-' :: t => do
    let (d, t) ← distance? t
    return ((if d = "00:00".toList then '+' else '-') :: d, t)
  | c :: t => if c = 'Z' || c = 'z' then some (['Z'], t) else none
  | [] => none

/-- A time after a date, with its offset if there is one. -/
def timeAfterDate? : Text → Option (Text × Text)
  | c :: t =>
    if c = 'T' || c = 't' || c = ' ' then do
      let (time, t) ← time? t
      let (offset, t) := (offset? t).getD ([], t)
      return ('T' :: time ++ offset, t)
    else none
  | [] => none

/-- A moment and the text after it. -/
def read? (t : Text) : Option (Moment × Text) :=
  match date? t with
  | some (date, rest) =>
    let (time, rest) := (timeAfterDate? rest).getD ([], rest)
    some (⟨date ++ time⟩, rest)
  | none => do
    let (time, rest) ← time? t
    return (⟨time⟩, rest)

end ConfigScript.Moment
