/-
# HgToGit.Settings.Moment -- dates and times in a settings document

A moment is a date, a time of day, or a date and a time with the letter T or a single space
between them and perhaps an offset after them. A date has four digits for the year and two each
for the month and the day, with hyphens between them, and names a day that the month has in that
year. A time has two digits each for the hour, the minute and the second, with colons between
them, and perhaps a point and further digits; the second can be the sixtieth. An offset is the
letter Z, or a sign, hours and minutes.
-/

namespace HgToGit.Settings.Moment

/-- The number in the first `count` characters, which are decimal digits, in front of which
`value` stands, and what follows them. -/
def number? : Nat → Nat → List Char → Option (Nat × List Char)
  | 0, value, cs => some (value, cs)
  | _ + 1, _, [] => none
  | count + 1, value, c :: cs =>
    if c.isDigit then number? count (value * 10 + (c.toNat - '0'.toNat)) cs else none

/-- A number of two digits within bounds, and what follows it. -/
def twoDigits? (min max : Nat) (cs : List Char) : Option (Nat × List Char) :=
  (number? 2 0 cs).filter fun r => min ≤ r.1 && r.1 ≤ max

/-- What follows a mark. -/
def after? (mark : Char) : List Char → Option (List Char)
  | [] => none
  | c :: cs => if c = mark then some cs else none

/-- Whether a year has a leap day. -/
def isLeap (year : Nat) : Bool := year % 4 = 0 && (year % 100 ≠ 0 || year % 400 = 0)

/-- The number of days in a month of a year. -/
def daysIn (year month : Nat) : Nat :=
  if month = 2 then if isLeap year then 29 else 28
  else if month = 4 ∨ month = 6 ∨ month = 9 ∨ month = 11 then 30
  else 31

/-- What follows a date. -/
def afterDate? (cs : List Char) : Option (List Char) := do
  let (year, cs) ← number? 4 0 cs
  let (month, cs) ← twoDigits? 1 12 (← after? '-' cs)
  let (_, cs) ← twoDigits? 1 (daysIn year month) (← after? '-' cs)
  some cs

/-- What follows the fraction of a second, if there is one. -/
def afterFraction : List Char → List Char
  | '.' :: c :: cs => if c.isDigit then cs.dropWhile Char.isDigit else '.' :: c :: cs
  | cs => cs

/-- What follows a time of day. -/
def afterTime? (cs : List Char) : Option (List Char) := do
  let (_, cs) ← twoDigits? 0 23 cs
  let (_, cs) ← twoDigits? 0 59 (← after? ':' cs)
  let (_, cs) ← twoDigits? 0 60 (← after? ':' cs)
  some (afterFraction cs)

/-- What follows the hours and minutes of an offset. -/
def afterHours? (cs : List Char) : Option (List Char) := do
  let (_, cs) ← twoDigits? 0 23 cs
  let (_, cs) ← twoDigits? 0 59 (← after? ':' cs)
  some cs

/-- What follows an offset, if there is one. -/
def afterOffset : List Char → List Char
  | [] => []
  | c :: cs =>
    if c = 'Z' ∨ c = 'z' then cs
    else if c = '+' ∨ c = '-' then (afterHours? cs).getD (c :: cs)
    else c :: cs

/-- Whether a character can stand between a date and a time. -/
def isDelimiter (c : Char) : Bool := c = 'T' || c = 't' || c = ' '

/-- What follows the time after a date, if there is one. -/
def afterTimeOfDate : List Char → List Char
  | [] => []
  | c :: cs =>
    if isDelimiter c then ((afterTime? cs).map afterOffset).getD (c :: cs) else c :: cs

/-- What follows a moment. -/
def afterMoment? (cs : List Char) : Option (List Char) :=
  (afterDate? cs).map afterTimeOfDate <|> afterTime? cs

/-- The moment that a text begins with, as it is written, and what follows it. -/
def read? (cs : List Char) : Option (String × List Char) :=
  (afterMoment? cs).map fun rest => (String.ofList (cs.take (cs.length - rest.length)), rest)

end HgToGit.Settings.Moment
