import LineBasic.Text.Bytes

/-!
# Lines and locations

A statement is executed either from a numbered line of the stored program or from the line that was
typed without a number, the *immediate* line. A location is a line and the number of tokens in front
of it; after the last token it is the end of the line.

## Main definitions

* `Line` — the immediate line, or a line by its number
* `Location` — a position in a line
-/

namespace LineBasic

/-- The line a statement is on. -/
inductive Line where
  /-- The line typed without a number. -/
  | immediate
  /-- A line of the stored program. -/
  | numbered (n : Nat)
deriving DecidableEq, Inhabited

namespace Line

/-- Whether a line has a number. -/
def isNumbered : Line → Bool
  | .immediate => false
  | .numbered _ => true

/-- The name of a line. -/
def text : Line → Bytes
  | .immediate => utf8 "immediate"
  | .numbered n => Bytes.decimal n

/-- What follows a message about a line: nothing for the immediate line. -/
def suffix : Line → Bytes
  | .immediate => []
  | .numbered n => utf8 " IN " ++ Bytes.decimal n

end Line

/-- A position in a line: the number of tokens in front of it. -/
structure Location where
  line : Line
  index : Nat
deriving DecidableEq, Inhabited

/-- The start of a line. -/
def Line.start (line : Line) : Location :=
  ⟨line, 0⟩

end LineBasic
