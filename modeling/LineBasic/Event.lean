import LineBasic.Line

/-!
# Output events

What a program shows is a sequence of events: printed text, which brings its own line breaks, and
markers, each of which fills a line except that trace markers run together.

## Main definitions

* `Event` — one thing to show
* `Event.text` — the event without its line break
* `Event.render` — a sequence of events as it appears
-/

namespace LineBasic

/-- Something that a program shows. -/
inductive Event where
  /-- Printed text. -/
  | print (text : Bytes)
  /-- A warning about a statement that was ignored. -/
  | warning (text : Bytes) (line : Line)
  /-- The program was stopped and may be continued. -/
  | broke (line : Line)
  /-- A statement of this line is about to run. -/
  | trace (line : Line)
  /-- A reply had more than was asked for. -/
  | extraIgnored (line : Line)
  /-- A reply did not fit and is asked for again. -/
  | reenter (line : Line)
deriving DecidableEq

namespace Event

/-- The text of an event. -/
def text : Event → Bytes
  | .print s => s
  | .warning s line => utf8 "WARNING" ++ line.suffix ++ utf8 ": " ++ s
  | .broke line => utf8 "BREAK" ++ line.suffix
  | .trace line => utf8 "#" ++ line.text
  | .extraIgnored _ => utf8 "?EXTRA IGNORED"
  | .reenter _ => utf8 "?REENTER"

/-- What follows the text of an event. -/
def terminator : Event → Bytes
  | .print _ => []
  | .trace _ => [0x20]
  | _ => [0x0a]

/-- Events as they appear. -/
def render (events : List Event) : Bytes :=
  events.flatMap fun e => e.text ++ e.terminator

/-- The message that an event carries. -/
def message : Event → Bytes
  | .print s | .warning s _ => s
  | _ => []

/-- The line that an event names. -/
def line : Event → Line
  | .print _ => .immediate
  | .warning _ line | .broke line | .trace line | .extraIgnored line | .reenter line => line

end Event

end LineBasic
