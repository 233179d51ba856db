import LineBasic.Fault
import LineBasic.Host.FileTree

/-!
# Problems of a host

Besides the faults of the machine a host meets problems of its own: the end of its input, a broken
off line, a file that cannot be read. They are reported on a line that starts with a question mark,
some of them in words of their own.

## Main definitions

* `Problem` — what a host reports
* `Problem.text` — the problem in full
* `Problem.report` — the line that shows it
-/

namespace LineBasic

/-- What a host reports. -/
inductive Problem where
  /-- A fault of the machine. -/
  | fault (f : Fault)
  /-- A line took too many steps. -/
  | stepLimit
  /-- The user broke off. -/
  | interrupted
  /-- There is no more input. -/
  | endOfInput
  /-- The name of a program has a wrong suffix. -/
  | badFilename
  /-- A file cannot be read. -/
  | unreadable (path : Bytes) (why : FileTree.Refusal)
  /-- A line of input is too long. -/
  | lineTooLong
  /-- A prompt holds a control character. -/
  | invalidPrompt
  /-- A line of a program file has no number. -/
  | notNumbered
  /-- Something else. -/
  | other (text : Bytes)
  /-- A problem in some place. -/
  | within (place : Bytes) (p : Problem)
deriving DecidableEq

namespace Problem

/-- A problem in full. -/
def text : Problem → Bytes
  | .fault f => f.text
  | .stepLimit => utf8 "step limit reached"
  | .interrupted => utf8 "interrupted"
  | .endOfInput => utf8 "EOF"
  | .badFilename => utf8 "invalid program filename"
  | .unreadable path why => why.text path
  | .lineTooLong => utf8 "bufio.Scanner: token too long"
  | .invalidPrompt => utf8 "invalid prompt"
  | .notNumbered => utf8 "not a numbered line"
  | .other s => s
  | .within place p => place ++ utf8 ": " ++ p.text

/-- The problem itself, without the places it is in. -/
def inner : Problem → Problem
  | .within _ p => p.inner
  | p => p

/-- A problem as it is shown. -/
def shown (p : Problem) : Bytes :=
  match p.inner with
  | .stepLimit => utf8 "STEP LIMIT REACHED"
  | .interrupted => utf8 "INTERRUPTED"
  | .endOfInput => utf8 "END OF INPUT"
  | _ => p.text

/-- The line that reports a problem; nothing is reported if there is none. -/
def report : Option Problem → Bytes
  | none => []
  | some p => utf8 "?" ++ p.shown ++ [0x0a]

end Problem

end LineBasic
