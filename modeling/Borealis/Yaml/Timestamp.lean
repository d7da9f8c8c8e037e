-- Whether a plain scalar reads as a date, or a date with a time of day.
import Borealis.Text

namespace Borealis.Yaml.Timestamp

/-- The value of digits. -/
def number (t : Text) : Nat := t.foldl (fun n b => n * 10 + (b - Text.byte '0').toNat) 0

/-- Reads one digit or two. -/
def upToTwo? : Text → Option (Nat × Text)
  | a :: b :: rest =>
    if Text.isDigit a then
      if Text.isDigit b then some (number [a, b], rest) else some (number [a], b :: rest)
    else none
  | [a] => if Text.isDigit a then some (number [a], []) else none
  | [] => none

/-- Reads one digit or two that stand for a number below `bound`. -/
def part? (bound : Nat) (t : Text) : Option (Nat × Text) :=
  (upToTwo? t).filter (·.1 < bound)

/-- Reads a byte. -/
def mark? (c : Char) : Text → Option Text
  | b :: rest => if b = Text.byte c then some rest else none
  | [] => none

/-- Whether a year has a day more. -/
def isLeap (year : Nat) : Bool := year % 4 == 0 && (year % 100 != 0 || year % 400 == 0)

/-- The days of a month. -/
def daysIn (year month : Nat) : Nat :=
  if month == 2 then (if isLeap year then 29 else 28)
  else if month == 4 || month == 6 || month == 9 || month == 11 then 30
  else 31

/-- Reads a date: four digits, a month and a day. Gives what follows, and whether such a day
exists. -/
def date? (t : Text) : Option (Bool × Text) := do
  let year := t.takeWhile Text.isDigit
  if year.length ≠ 4 then none
  let rest ← mark? '-' (t.drop 4)
  let (month, rest) ← upToTwo? rest
  if month = 0 ∨ 12 < month then none
  let rest ← mark? '-' rest
  let (day, rest) ← upToTwo? rest
  return (1 ≤ day && day ≤ daysIn (number year) month, rest)

/-- Passes a fraction of a second, if there is one. -/
def skipFraction (t : Text) : Text :=
  match t with
  | p :: d :: rest =>
    if (p = Text.byte '.' ∨ p = Text.byte ',') ∧ Text.isDigit d then rest.dropWhile Text.isDigit
    else t
  | _ => t

/-- Reads hours, minutes and seconds. -/
def time? (t : Text) : Option Text := do
  let (_, rest) ← part? 24 t
  let rest ← mark? ':' rest
  let (_, rest) ← part? 60 rest
  let rest ← mark? ':' rest
  let (_, rest) ← part? 60 rest
  return skipFraction rest

/-- Whether the text is a zone: a letter, or a sign, hours and minutes. -/
def isZone (t : Text) : Bool :=
  match t with
  | [z] => z == Text.byte 'Z'
  | [s, a, b, c, d, e] =>
    (s == Text.byte '+' || s == Text.byte '-') && [a, b, d, e].all Text.isDigit
      && c == Text.byte ':' && number [a, b] ≤ 24 && number [d, e] ≤ 60
  | _ => false

/-- Whether what follows a date makes it a moment: nothing, a time with a zone after a letter,
or a time without a zone after spaces. -/
def isMoment (rest : Text) : Bool :=
  match rest with
  | [] => true
  | b :: more =>
    if b = Text.byte 'T' ∨ b = Text.byte 't' then (time? more).any isZone
    else if b = Text.byte ' ' then
      (time? (more.dropWhile (· == Text.byte ' '))).any List.isEmpty
    else false

/-- Whether the text reads as a date, perhaps with a time of day. -/
def matches? (t : Text) : Bool :=
  match date? t with
  | some (exists_, rest) => exists_ && isMoment rest
  | none => false

end Borealis.Yaml.Timestamp
