import LazyVectors.Decimal
/-!
Dates and times of day in settings files: `1979-05-27`, `07:32:00.5`, or a date and a time with
a `T` or a blank between them and perhaps an offset behind, as in `1979-05-27T07:32:00+02:00`.
No setting is one. So a reader tells whether the characters before it write a day or a time that
exists, and answers with the rest alone.
-/

set_option autoImplicit false

namespace LazyVectors.Settings.Moment

def part? (digits low high : Nat) (cs : List Char) : Option (Nat × List Char) := do
  let ds ← (cs.take digits).mapM Decimal.digit?
  let n := Decimal.value ds
  if ds.length = digits ∧ low ≤ n ∧ n ≤ high then some (n, cs.drop digits) else none

def mark? (c : Char) : List Char → Option (List Char)
  | d :: cs => if d = c then some cs else none
  | [] => none

def isLeap (year : Nat) : Bool := year % 4 == 0 && (year % 100 != 0 || year % 400 == 0)

def daysIn (year month : Nat) : Nat :=
  if month = 2 then (if isLeap year then 29 else 28)
  else if month = 4 ∨ month = 6 ∨ month = 9 ∨ month = 11 then 30
  else 31

def date? (cs : List Char) : Option (List Char) := do
  let (year, rest) ← part? 4 0 9999 cs
  let rest ← mark? '-' rest
  let (month, rest) ← part? 2 1 12 rest
  let rest ← mark? '-' rest
  let (_, rest) ← part? 2 1 (daysIn year month) rest
  some rest

def hourAndMinute? (cs : List Char) : Option (List Char) := do
  let (_, rest) ← part? 2 0 23 cs
  let rest ← mark? ':' rest
  let (_, rest) ← part? 2 0 59 rest
  some rest

def skipFraction (cs : List Char) : List Char :=
  match cs with
  | '.' :: rest =>
    if (rest.head?.bind Decimal.digit?).isSome then
      rest.dropWhile fun c => (Decimal.digit? c).isSome
    else cs
  | cs => cs

/-- A time of day; a minute may end with a leap second. -/
def time? (cs : List Char) : Option (List Char) := do
  let rest ← hourAndMinute? cs
  let rest ← mark? ':' rest
  let (_, rest) ← part? 2 0 60 rest
  some (skipFraction rest)

def skipOffset (cs : List Char) : List Char :=
  match cs with
  | 'Z' :: rest | 'z' :: rest => rest
  | '+' :: rest | '-' :: rest => (hourAndMinute? rest).getD cs
  | cs => cs

def skipTime (cs : List Char) : List Char :=
  match cs with
  | 'T' :: rest | 't' :: rest | ' ' :: rest => ((time? rest).map skipOffset).getD cs
  | cs => cs

/-- What is left behind a date, a time, or both. -/
def read? (cs : List Char) : Option (List Char) :=
  match date? cs with
  | some rest => some (skipTime rest)
  | none => time? cs

end LazyVectors.Settings.Moment
