import MonoTap.Document.Yaml.Place
import MonoTap.Number.Digits

/-!
# Points in time of a YAML text

A date, or a date and the time of the day with an offset from the standard time.
-/

set_option autoImplicit false

namespace MonoTap.Document.Yaml

/-- A date, and the time of the day where it is given. -/
structure PointInTime where
  year : Nat
  month : Nat
  day : Nat
  time : Option (Nat × Nat × Nat)
  deriving DecidableEq, Repr

/-- One or two digits, or two alone, and what is left after them. -/
def twoDigits? (both : Bool) : List Char → Option (Nat × List Char)
  | a :: b :: cs =>
    if a.isDigit && b.isDigit then some (Number.digitsValue [a, b], cs)
    else if a.isDigit && !both then some (Number.digitsValue [a], b :: cs)
    else none
  | [a] => if a.isDigit && !both then some (Number.digitsValue [a], []) else none
  | [] => none

/-- Whether a text is an offset from the standard time, after blanks, or empty. -/
def isOffset (cs : List Char) : Bool :=
  match cs.dropWhile isBlank with
  | [] => cs.isEmpty
  | ['Z'] => true
  | sign :: rest =>
    (sign == '+' || sign == '-') &&
      match twoDigits? false rest with
      | some (_, []) => true
      | some (_, ':' :: minutes) => (twoDigits? true minutes).any (·.2.isEmpty)
      | _ => false

/-- The time of the day with what may come after it. -/
def timeOfDay? (cs : List Char) : Option (Nat × Nat × Nat) := do
  let (hour, cs) ← twoDigits? false cs
  let (minute, cs) ← twoDigits? true (← afterSign ':' cs)
  let (second, cs) ← twoDigits? true (← afterSign ':' cs)
  let cs := match cs with
    | '.' :: fraction => fraction.dropWhile Char.isDigit
    | cs => cs
  if isOffset cs then some (hour, minute, second) else none
where
  /-- What is left after a sign. -/
  afterSign (sign : Char) : List Char → Option (List Char)
    | c :: cs => if c == sign then some cs else none
    | [] => none

/-- The point in time that a text stands for. A date alone has two digits for the month and the day.
-/
def pointInTime? (text : List Char) : Option PointInTime := do
  let year := text.take 4
  if year.length == 4 && year.all Char.isDigit then
    let (month, cs) ← twoDigits? false (← timeOfDay?.afterSign '-' (text.drop 4))
    let (day, cs) ← twoDigits? false (← timeOfDay?.afterSign '-' cs)
    let date : PointInTime := ⟨Number.digitsValue year, month, day, none⟩
    match cs with
    | [] => if text.length == 10 then some date else none
    | 'T' :: cs | 't' :: cs => (timeOfDay? cs).map fun time => { date with time }
    | c :: _ =>
      if isBlank c then (timeOfDay? (cs.dropWhile isBlank)).map fun time => { date with time }
      else none
  else none

/-- The number of days of a month. -/
def daysIn (year month : Nat) : Nat :=
  if month == 2 then
    if year % 4 == 0 && (year % 100 != 0 || year % 400 == 0) then 29 else 28
  else if [4, 6, 9, 11].contains month then 30
  else 31

/-- Whether there is such a point in time. -/
def PointInTime.check (p : PointInTime) : Except Fault Unit := do
  if p.year == 0 then throw (.outOfRange "year 0 is out of range")
  if p.month == 0 || 12 < p.month then throw (.outOfRange "month must be in 1..12")
  if p.day == 0 || daysIn p.year p.month < p.day then
    throw (.outOfRange "day is out of range for month")
  let (hour, minute, second) := p.time.getD (0, 0, 0)
  if 23 < hour then throw (.outOfRange "hour must be in 0..23")
  if 59 < minute then throw (.outOfRange "minute must be in 0..59")
  if 59 < second then throw (.outOfRange "second must be in 0..59")

end MonoTap.Document.Yaml
