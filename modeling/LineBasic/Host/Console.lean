import LineBasic.Host.History
import LineBasic.Host.Session

/-!
# The console

At a console a prompt is shown before each line, problems are reported, and the session goes on. It
ends when the user says `BYE` or when there are no more lines. Lines and replies come from readers
of their own, since only lines are remembered.

## Main definitions

* `Console` — a session at a console, with its history
* `Console.run` — executes what is typed
-/

namespace LineBasic

/-- A session at a console. -/
structure Console where
  session : Session
  history : History := {}
  /-- The replies that have not been asked for yet. -/
  replies : List Reply := []
  /-- What is reported elsewhere than on the console itself. -/
  errors : Bytes := []

namespace Console

/-- Shows the prompt for a line, if it can be shown. -/
def ask? (c : Console) : Option Console :=
  let prompt := c.session.config.prompt
  if Session.isPrompt prompt then some { c with session := c.session.write prompt } else none

/-- Reports that the prompt cannot be shown. -/
def giveUp (c : Console) : Console :=
  { c with errors := c.errors ++ Problem.report (some .invalidPrompt) }

/-- Executes a line and reports what went wrong. -/
def execute (c : Console) (line : Bytes) : Console :=
  let (problem, replies, session) := c.session.execute line c.replies
  { c with session := session.report problem, replies, history := c.history.add line }

/-- Executes lines. If there is no way to ask for them, the console gives up. -/
def run (c : Console) : List Bytes → Console
  | [] =>
    if c.session.exiting then c
    else
      match c.ask? with
      | none => c.giveUp
      | some c => { c with session := c.session.write [0x0a] }
  | line :: lines =>
    if c.session.exiting then c
    else
      match c.ask? with
      | none => c.giveUp
      | some c => run (c.execute line) lines

/-- A console on which `replies` are typed where a line asks for input. -/
def start (session : Session) (history : History) (replies : Bytes) : Console :=
  { session := { session with strictPrompts := true }, history, replies := Reply.ofConsole replies }

/-- All that appears on a console. -/
def output (c : Console) : Bytes :=
  c.session.output.flatMap Chunk.render

end Console

end LineBasic
