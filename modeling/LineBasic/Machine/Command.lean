import LineBasic.Machine.Step
import LineBasic.Token.Lexer

/-!
# Submitting a line

A line that is one of six commands is executed at once. A line that starts with a line number is
stored, or deletes the stored line if nothing follows the number. Any other line becomes the
immediate line and starts running.

## Main definitions

* `Command` — the commands
* `Command.squeeze` — a line as commands are recognised in it
* `Machine.submit` — submits a line
-/

namespace LineBasic

/-- The commands that are only recognised on a line of their own. -/
inductive Command where
  | run | list | new | cont | trace | noTrace
deriving DecidableEq

namespace Command

/-- The spelling of a command. -/
def spelling : Command → Bytes
  | .run => utf8 "RUN"
  | .list => utf8 "LIST"
  | .new => utf8 "NEW"
  | .cont => utf8 "CONT"
  | .trace => utf8 "TRACE"
  | .noTrace => utf8 "NOTRACE"

/-- All commands. -/
def all : List Command :=
  [.run, .list, .new, .cont, .trace, .noTrace]

/-- A line in upper case and without its blanks. -/
def squeeze (line : Bytes) : Bytes :=
  (line.filter (!Byte.isBlank ·)).map Byte.upper

/-- The command that a line is. -/
def read? (line : Bytes) : Option Command :=
  all.find? fun c => c.spelling == squeeze line

end Command

namespace Machine

/-- The line number that a line starts with, and the tokens after it. -/
def numbered? : List Token → Option (Nat × List Token)
  | .number x :: tokens =>
    match Number.lineNumber x with
    | .ok n => some (n, tokens)
    | .error _ => none
  | _ => none

/-- Stores a line. Functions defined on it are forgotten, since they are kept as places in it. -/
def storeLine (m : Machine) (n : Nat) (tokens : List Token) : Machine :=
  { m with
    program := m.program.store n tokens
    functions := m.functions.filter fun _ f => f.body.line ≠ .numbered n }

/-- Executes a command. -/
def runCommand (m : Machine) (c : Command) : Option Fault × Machine :=
  let m := m.record (.command c.spelling)
  match c with
  | .run =>
    let m := { m.clear with program := m.program.reset }
    match m.program.startAtFirst? with
    | some program => (none, { m with program }.enter .running)
    | none => (none, m.enter .idle)
  | .list =>
    let text := m.program.listing
    (none, (if text.isEmpty then m else m.emit (.print text)).enter .idle)
  | .new => (none, m.enter .newRequested)
  | .cont =>
    match Program.continueRun m.program with
    | .ok () program => (none, { m with program }.enter .running)
    | .error cause program => (some ⟨cause, .immediate⟩, { m with program }.enter .idle)
  | .trace => (none, { m with tracing := true })
  | .noTrace => (none, { m with tracing := false })

/-- Makes tokens the immediate line and starts it. What is remembered about an `INPUT` suspended in
an earlier immediate line is dropped. -/
def startImmediate (m : Machine) (tokens : List Token) : Machine :=
  let branchInput := m.branchInput.filter (·.line.isNumbered)
  { m with branchInput, program := m.program.setImmediate tokens }.enter .running

/-- Submits a line, and says what is wrong with it. A line is refused while another one is running
or waiting. -/
def submit (m : Machine) (line : Bytes) : Option Fault × Machine :=
  if m.state = .running ∨ m.state = .awaitingInput then (some ⟨.illegalDirect, .immediate⟩, m)
  else
    let line := Bytes.trimLineEnds line
    match Command.read? line with
    | some c => m.runCommand c
    | none =>
      match Token.read line with
      | .error cause => (some ⟨cause, .immediate⟩, m.enter .idle)
      | .ok tokens =>
        match numbered? tokens with
        | some (n, tokens) => (none, (m.storeLine n tokens).enter .idle)
        | none => if tokens.isEmpty then (none, m.enter .idle) else (none, m.startImmediate tokens)

end Machine

end LineBasic
