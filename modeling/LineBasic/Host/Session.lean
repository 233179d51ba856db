import LineBasic.Host.Config
import LineBasic.Host.Help
import LineBasic.Host.LineReader
import LineBasic.Host.Problem
import LineBasic.Host.Statistics
import LineBasic.Machine.Run
import LineBasic.Text.Space
import LineBasic.Text.UpperCase

/-!
# Sessions

A session holds a machine and drives it one line at a time. A few lines are commands of the host:
`HELP` and `BYE`. Every other line goes to the machine, which then takes steps until it stops, asks
for a reply, or is broken off. What it shows is written after each step, so that it appears at once
and a user can break off between two statements.

The bound on the steps of a line holds for the whole line: steps before and after a reply count
together.

## Main definitions

* `Session` — a machine and what its host knows about it
* `Reply` — what comes back when a line asks for input
* `Session.start`, `Session.answer` — start a line, or go on with a reply, until the line has ended
  or asks for one
* `Session.execute` — executes a line, with given replies
* `Session.load`, `Session.loadFile` — store the lines of a program file
-/

namespace LineBasic

/-- Something that a session has written. -/
inductive Chunk where
  /-- Text for the user. -/
  | text (s : Bytes)
  /-- The tokens of a line, for finding out how lines are read. -/
  | dump (lexemes : List Lexeme)
deriving DecidableEq

namespace Chunk

/-- The text for the user; a dump has none. -/
def shown : Chunk → Bytes
  | .text s => s
  | .dump _ => []

/-- The tokens that are dumped. -/
def lexemes : Chunk → List Lexeme
  | .text _ => []
  | .dump lexemes => lexemes

/-- A chunk as it appears on a terminal; each dumped token has a line of its own. -/
def render : Chunk → Bytes
  | .text s => s
  | .dump lexemes => lexemes.flatMap fun l =>
    List.intercalate [0x20]
      [l.token.kind.name, Quoted.write l.token.listing, Bytes.decimal l.span.start,
        Bytes.decimal l.span.stop] ++ [0x0a]

end Chunk

/-- What comes back when a line asks for input. Where no reply is left, the input has ended. -/
inductive Reply where
  | line (text : Bytes)
  /-- The user breaks off. -/
  | interrupt
  /-- Reading fails. -/
  | failure (problem : Problem)
deriving DecidableEq

namespace Reply

/-- The lines of a file as replies. -/
def ofFile (text : Bytes) : List Reply :=
  let (lines, cut) := LineReader.fileLines text
  lines.map .line ++ if cut then [.failure .lineTooLong] else []

/-- What was typed at a console as replies. -/
def ofConsole (text : Bytes) : List Reply :=
  (LineReader.consoleLines text).map .line

end Reply

/-- A machine and what its host knows about it. -/
structure Session where
  config : Config
  machine : Machine
  /-- What the clock says, for machines that are to have a new seed. -/
  clock : Int := 0
  /-- What a run is said to have cost. -/
  usage : Statistics.Usage := {}
  /-- What has been written, latest first. -/
  written : List Chunk := []
  /-- The statements executed since the last `RUN`. -/
  statements : Nat := 0
  /-- Whether the user has said `BYE`. -/
  exiting : Bool := false
  /-- The user breaks off as soon as something that is written holds this text. -/
  watch : Option Bytes := none
  /-- Whether the user has broken off the current line. -/
  cancelled : Bool := false
  /-- Whether a prompt must not hold control characters. -/
  strictPrompts : Bool := false

namespace Session

/-- A session with a machine before its first line. -/
def new (config : Config) (clock : Int) : Session :=
  { config, clock, machine := Machine.new (config.options clock) }

/-- Replaces the machine by one before its first line. The clock has moved on. -/
def renew (s : Session) : Session :=
  let clock := s.clock + 1
  { s with clock, machine := Machine.new (s.config.options clock) }

/-- Writes a text. -/
def write (s : Session) (text : Bytes) : Session :=
  { s with
    written := .text text :: s.written
    cancelled := s.cancelled || s.watch.any (Bytes.contains text) }

/-- All that has been written, in order. -/
def output (s : Session) : List Chunk :=
  s.written.reverse

/-- Forgets what has been written. -/
def forget (s : Session) : Session :=
  { s with written := [] }

/-- Writes what the machine has shown since this was last done. -/
def flush (s : Session) : Session :=
  let (events, machine) := s.machine.takeOutput
  let s := { s with machine := { machine with log := #[] } }
  if events.isEmpty then s else s.write (Event.render events)

/-- Breaks the machine off, and shows where. -/
def breakOff (s : Session) : Session :=
  { s with machine := s.machine.interrupt }.flush

/-- The steps of a session: those of its machine, each counted and followed by what it shows. -/
def stepper : Stepper Session where
  isRunning s := s.machine.state = .running
  isCancelled s := s.cancelled
  interrupt s := { s with machine := s.machine.interrupt }
  step s :=
    let (fault, machine) := s.machine.step
    (fault, { s with machine, statements := s.statements + 1 }.flush)

/-- Where a line stands that does not run. -/
inductive Pause where
  /-- It has ended, perhaps with a problem. -/
  | ended (problem : Option Problem)
  /-- It asks for a reply, after so many steps. -/
  | asks (steps : Nat)
deriving DecidableEq

/-- What a line that asks for a reply shows before it is given one. -/
def prompt (s : Session) : Bytes :=
  s.machine.prompt ++ [0x20]

/-- Whether a text can be used as a prompt. -/
def isPrompt (text : Bytes) : Bool :=
  (Character.decode text).all fun
    | .char c => !Character.isControl c
    | .stray _ => true

/-- Where the line stands, after so many steps, if it does not run. If it asks for a reply, the
prompt is shown. -/
def pause (s : Session) (steps : Nat) : Pause × Session :=
  if s.machine.state ≠ .awaitingInput then (.ended none, s)
  else if s.strictPrompts && !isPrompt s.prompt then (.ended (some .invalidPrompt), s.breakOff)
  else (.asks steps, s.write s.prompt)

/-- Goes on, after so many steps of the line, until it has ended or asks for a reply. That a line
may take no more steps is seen before it is seen that the user has broken off. -/
def advance (s : Session) (steps : Nat) : Pause × Session :=
  let s := s.flush
  let limit := s.config.maxSteps.toNat
  if s.machine.state ≠ .running then s.pause steps
  else if 0 < limit ∧ limit ≤ steps then (.ended (some .stepLimit), s.breakOff)
  else
    let (ending, taken, s) := stepper.runAll (limit - steps) s
    let s := s.flush
    match ending with
    | .failed fault => (.ended (some (.fault fault)), s)
    | .stepLimit => (.ended (some .stepLimit), s)
    | .stopped | .cancelled => s.pause (steps + taken)

/-- Gives a line that asks for a reply, after so many steps, what came back. -/
def answer (s : Session) (steps : Nat) : Reply → Pause × Session
  | .line text =>
    { s with machine := (s.machine.provideInput? text).getD s.machine }.advance steps
  | .interrupt => (.ended none, s.breakOff)
  | .failure problem => (.ended (some problem), s.breakOff)

/-- Gives a line replies, as it asks for them, until it has ended. What is left of the replies comes
back. -/
def drive : Pause × Session → List Reply → Option Problem × List Reply × Session
  | (.ended problem, s), replies => (problem, replies, s)
  | (.asks _, s), [] => (some .endOfInput, [], s.breakOff)
  | (.asks steps, s), reply :: replies => drive (s.answer steps reply) replies

/-- Driving uses up replies, and never makes any. -/
theorem length_drive_le (p : Pause × Session) (replies : List Reply) :
    (drive p replies).2.1.length ≤ replies.length := by
  induction replies generalizing p with
  | nil => rcases p with ⟨_ | _, s⟩ <;> exact Nat.le_refl _
  | cons reply replies ih =>
    rcases p with ⟨_ | steps, s⟩
    · exact Nat.le_refl _
    · exact Nat.le_succ_of_le (ih (s.answer steps reply))

/-- Whether a line starts a run, as far as the host can tell. -/
def isRun (line : Bytes) : Bool :=
  (Bytes.fields line).flatten.map Byte.upper == utf8 "RUN"

/-- Executes a line that is a command of the host. -/
def hostCommand? (s : Session) (line : Bytes) : Option Session :=
  match Bytes.fields (Bytes.upper line) with
  | [] => none
  | word :: rest =>
    if word == utf8 "HELP" then some (s.write (Help.answer (rest.headD [])))
    else if word == utf8 "BYE" && rest.isEmpty then some { s with exiting := true }
    else none

/-- Writes the tokens of a line if this is asked for. A line that cannot be read has none. -/
def dump (s : Session) (line : Bytes) : Session :=
  if s.config.dumpTokens then
    match Lexer.run line with
    | .ok lexemes => { s with written := .dump lexemes :: s.written }
    | .error _ => s
  else s

/-- Starts a line for the machine. -/
def start (s : Session) (line : Bytes) : Pause × Session :=
  let s := s.dump line
  let s := { s with statements := if isRun line then 0 else s.statements, cancelled := false }
  match s.machine.submit line with
  | (some fault, machine) => (.ended (some (.fault fault)), { s with machine })
  | (none, machine) => { s with machine }.advance 0

/-- What is done after a line has ended: all is shown, a new machine is set up if the line asked for
it, and statistics follow a run. -/
def finish (s : Session) (line : Bytes) : Session :=
  let s := s.flush
  let s := if s.machine.state = .newRequested then s.renew else s
  if isRun line && s.config.stats then s.write (Statistics.report s.usage s.statements) else s

/-- Executes a line, with replies for when it asks for input. Tells what went wrong, and what is
left of the replies. -/
def execute (s : Session) (line : Bytes) (replies : List Reply) :
    Option Problem × List Reply × Session :=
  match s.hostCommand? line with
  | some s => (none, replies, s)
  | none =>
    let (problem, replies, s) := drive (s.start line) replies
    (problem, replies, s.finish line)

/-- Executing a line uses up replies, and never makes any. -/
theorem length_execute_le (s : Session) (line : Bytes) (replies : List Reply) :
    (s.execute line replies).2.1.length ≤ replies.length := by
  rw [execute]
  split
  · exact Nat.le_refl _
  · exact length_drive_le _ replies

/-- The name of a line of a program file. -/
def place (n : Nat) : Bytes :=
  utf8 "line " ++ Bytes.decimal n

/-- Stores lines of a program file, of which the first has the number `n` in the file. White lines
are passed over. A line that starts something is refused. -/
def loadLines (s : Session) : (n : Nat) → List Bytes → Option Problem × Session
  | _, [] => (none, s)
  | n, line :: lines =>
    if Bytes.isWhite line then loadLines s (n + 1) lines
    else
      match s.machine.submit line with
      | (some fault, machine) => (some (.within (place n) (.fault fault)), { s with machine })
      | (none, machine) =>
        if machine.state = .idle then loadLines { s with machine } (n + 1) lines
        else
          (some (.within (place n) .notNumbered),
            { s with machine := machine.interrupt.takeOutput.2 })

/-- Stores the lines of a program. -/
def load (s : Session) (text : Bytes) : Option Problem × Session :=
  let (lines, cut) := LineReader.fileLines text
  match s.loadLines 1 lines with
  | (some problem, s) => (some problem, s)
  | (none, s) => (if cut then some .lineTooLong else none, s)

/-- Stores the lines of a program file. -/
def loadFile (s : Session) (files : FileReader) (name : Bytes) : Option Problem × Session :=
  match Path.programName? name with
  | none => (some .badFilename, s)
  | some path =>
    match files path with
    | .ok text => s.load text
    | .error why => (some (.unreadable path why), s)

/-- Writes the report of a problem, if there is one. -/
def report (s : Session) (problem : Option Problem) : Session :=
  if problem.isSome then s.write (Problem.report problem) else s

end Session

end LineBasic
