import LineBasic.Text.Bytes

/-!
# Points in time

A point in time is written as a date, or as a date and a time of day. The parts of both are numbers;
a year has four digits, all others one or two. After a letter between date and time the text ends
with a time zone, after blanks there is none. Seconds may have a fraction.

## Main definitions

* `Document.Moment.daysIn` — the length of a month
* `Document.Moment.isWritten` — whether a text is a point in time
-/

namespace LineBasic.Document.Moment

/-- A number of one or two digits, and what follows it. -/
def number? : Bytes → Option (Nat × Bytes)
  | [] => none
  | [a] => if Byte.isDigit a then some (Byte.digitValue a, []) else none
  | a :: b :: s =>
    if !Byte.isDigit a then none
    else if Byte.isDigit b then some (Byte.digitValue a * 10 + Byte.digitValue b, s)
    else some (Byte.digitValue a, b :: s)

/-- Whether a year has a day more than others. -/
def isLeap (year : Nat) : Bool :=
  year % 4 == 0 && (year % 100 != 0 || year % 400 == 0)

/-- The number of days of a month. -/
def daysIn (year month : Nat) : Nat :=
  if month = 2 then (if isLeap year then 29 else 28)
  else if month = 4 || month = 6 || month = 9 || month = 11 then 30
  else 31

/-- What follows the byte `c`. -/
def after? (c : UInt8) : Bytes → Option Bytes
  | [] => none
  | d :: s => if c == d then some s else none

/-- What follows the date that a text starts with. -/
def date? (s : Bytes) : Option Bytes := do
  let year := s.takeWhile Byte.isDigit
  if year.length ≠ 4 then none
  else
    let (month, s) ← number? (← after? 0x2d (s.drop 4))
    let (day, s) ← number? (← after? 0x2d s)
    if month < 1 || 12 < month || day < 1 || daysIn (Bytes.natural year) month < day then none
    else some s

/-- What follows a fraction, if there is one. -/
def dropFraction : Bytes → Bytes
  | c :: d :: s =>
    if (c == 0x2e || c == Byte.comma) && Byte.isDigit d then s.dropWhile Byte.isDigit
    else c :: d :: s
  | s => s

/-- What follows the time of day that a text starts with. -/
def time? (s : Bytes) : Option Bytes := do
  let (hour, s) ← number? s
  let (minute, s) ← number? (← after? Byte.colon s)
  let (second, s) ← number? (← after? Byte.colon s)
  if 24 ≤ hour || 60 ≤ minute || 60 ≤ second then none else some (dropFraction s)

/-- Whether a text is a time zone: the letter for none, or hours and minutes with a sign. -/
def isZone : Bytes → Bool
  | [c] => c == 0x5a
  | [sign, a, b, c, d, e] =>
    let isNumber (x y : UInt8) (most : Nat) : Bool :=
      Byte.isDigit x && Byte.isDigit y && Byte.digitValue x * 10 + Byte.digitValue y ≤ most
    (sign == 0x2b || sign == 0x2d) && c == Byte.colon && isNumber a b 24 && isNumber d e 60
  | _ => false

/-- Whether a text is a point in time. -/
def isWritten (s : Bytes) : Bool :=
  match date? s with
  | none => false
  | some [] => true
  | some (c :: s) =>
    if c == 0x54 || c == 0x74 then (time? s).any isZone
    else if c == 0x20 then (time? (s.dropWhile (· == 0x20))).any List.isEmpty
    else false

end LineBasic.Document.Moment
