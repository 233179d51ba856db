import LineBasic.Event
import LineBasic.Fault
import LineBasic.State

/-!
# Codes

States, signals, kinds of faults, kinds of tokens and events have numeric codes, which hosts use to
name them. A code that stands for nothing still has a name, and a fault may be described by codes
alone.

## Main definitions

* `Code.stateName`, `Code.signalName`, `Code.faultName`, `Code.tokenName` — the names of codes
* `Code.event?`, `Code.ofEvent` — the codes of events
* `CodedFault` — a fault described by codes
-/

namespace LineBasic

namespace Code

/-- The entry of a list that has the given code, when codes count up from `first`. -/
def nth? {α : Type} (all : List α) (first code : Int) : Option α :=
  if code < first then none else all[(code - first).toNat]?

/-- The name of a code that stands for nothing. -/
def unknown (what : String) (code : Int) : Bytes :=
  utf8 what ++ utf8 "(" ++ Bytes.decimalInt code ++ utf8 ")"

/-- The name of a state code; states count from 0. -/
def stateName (code : Int) : Bytes :=
  ((nth? State.all 0 code).map State.name).getD (utf8 "State(?)")

/-- The name of a signal code; signals count from 1. -/
def signalName (code : Int) : Bytes :=
  ((nth? Signal.all 1 code).map Signal.name).getD (utf8 "signal")

/-- The text of a fault code; kinds of faults count from 1. -/
def faultName (code : Int) : Bytes :=
  ((nth? Fault.Kind.all 1 code).map Fault.Kind.text).getD (unknown "ErrorKind" code)

/-- The name of a token code; kinds of tokens count from 1. -/
def tokenName (code : Int) : Bytes :=
  ((nth? Token.Kind.all 1 code).map Token.Kind.name).getD (unknown "TokenKind" code)

/-- The event with a given code. -/
def event? (code : Int) (text : Bytes) (line : Line) : Option Event :=
  nth? [.print text, .warning text line, .broke line, .trace line, .extraIgnored line,
    .reenter line] 0 code

/-- The code of an event. -/
def ofEvent : Event → Nat
  | .print _ => 0
  | .warning .. => 1
  | .broke _ => 2
  | .trace _ => 3
  | .extraIgnored _ => 4
  | .reenter _ => 5

/-- What an event shows; one with an unknown code shows an empty line. -/
def renderEvent : Option Event → Bytes
  | some e => Event.render [e]
  | none => [0x0a]

end Code

/-- A fault described by the codes of its kind, its detail and the token it is about. -/
structure CodedFault where
  kind : Int := 0
  detail : Int := 0
  message : Bytes := []
  token : Int := 0
  line : Line := .immediate
deriving DecidableEq

namespace CodedFault

/-- The message of a fault described by codes; details count from 1. -/
def text (f : CodedFault) : Bytes :=
  Fault.compose (Code.faultName f.kind)
    (Fault.Detail.remark (Code.nth? Fault.Detail.all 1 f.detail) f.message
      (Code.tokenName f.token))
    f.line

/-- Whether a fault is of the sort that `target` describes: of the same kind, and with the same
detail if `target` has one. -/
def isA (f target : CodedFault) : Bool :=
  f.kind == target.kind && (target.detail == 0 || target.detail == f.detail)

end CodedFault

end LineBasic
