import LineBasic.Host.CommandLine
import LineBasic.Host.Console

/-!
# The program

Reads and writes for the host: files and lines are read when they are asked for, and what a session
has written is shown as soon as it pauses. On a terminal the session is a console.
-/

namespace LineBasic.Main

/-- The bytes of a text. -/
def encode (s : Bytes) : ByteArray :=
  ⟨s.toArray⟩

/-- A path as the operating system takes it. -/
def nameOf (path : Bytes) : String :=
  (String.fromUTF8? (encode path)).getD ""

/-- Reads a file. -/
def readFile (path : Bytes) : IO (Except FileTree.Refusal Bytes) := do
  try
    return .ok (← IO.FS.readBinFile (nameOf path)).toList
  catch
    | .noFileOrDirectory .. => return .error .notFound
    | .inappropriateType .. => return .error .isDirectory
    | .permissionDenied .. => return .error .denied
    | _ => return .error .notFound

/-- Reads the given files in advance. -/
def readFiles (paths : List Bytes) : IO FileReader := do
  let texts ← paths.mapM fun path => return (path, ← readFile path)
  return fun path => (texts.lookup path).getD (.error .notFound)

/-- Reads the next line of a file, with its line feed; it is empty if there is none. -/
def readLine (stream : IO.FS.Stream) : IO Bytes := do
  return (← stream.getLine).toUTF8.toList

/-- Shows what a session has written. -/
def present (s : Session) : IO Session := do
  let out ← IO.getStdout
  out.write (encode (s.output.flatMap Chunk.render))
  out.flush
  return s.forget

/-- Gives a line replies as it asks for them, until it has ended. -/
partial def drive (p : Session.Pause × Session) : IO (Option Problem × Session) := do
  let s ← present p.2
  match p.1 with
  | .ended problem => return (problem, s)
  | .asks steps =>
    match Reply.ofFile (← readLine (← IO.getStdin)) with
    | [] => return (some .endOfInput, s.breakOff)
    | reply :: _ => drive (s.answer steps reply)

/-- Executes a line. -/
def execute (s : Session) (line : Bytes) : IO (Option Problem × Session) := do
  match s.hostCommand? line with
  | some s => return (none, ← present s)
  | none =>
    let (problem, s) ← drive (s.start line)
    return (problem, ← present (s.finish line))

/-- Executes the lines of the standard input until there is a problem. -/
partial def batch (s : Session) : IO (Option Problem × Session) := do
  if s.exiting then return (none, s)
  match Reply.ofFile (← readLine (← IO.getStdin)) with
  | [] => return (none, s)
  | .line line :: _ =>
    match ← execute s line with
    | (none, s) => batch s
    | (some problem, s) => return (some problem, s)
  | .failure problem :: _ => return (some problem, s)
  | .interrupt :: _ => return (some .interrupted, s)

/-- Executes the lines of a console. -/
partial def console (c : Console) : IO Console := do
  if c.session.exiting then return c
  match c.ask? with
  | none => return c.giveUp
  | some c =>
    let s ← present c.session
    match LineReader.consoleLines (← readLine (← IO.getStdin)) with
    | [] => return { c with session := ← present (s.write [0x0a]) }
    | line :: _ =>
      let (problem, s) ← execute s line
      console { c with session := ← present (s.report problem), history := c.history.add line }

/-- Shows the outcome of a session that has ended. -/
def conclude (o : Outcome) : IO UInt32 := do
  (← IO.getStdout).write (encode (o.output.flatMap Chunk.render))
  (← IO.getStderr).write (encode o.errors)
  return o.status.toUInt32

/-- Runs a console, with the history that is kept in a file. -/
def runConsole (s : Session) : IO UInt32 := do
  let path := s.config.historyFile
  let text := (← readFile path).toOption.getD []
  IO.print "\x1b[2J\x1b[H"
  let s ← present (s.write (Banner.line 0 []))
  let c ← console (Console.start s (History.read text) [])
  unless path.isEmpty do IO.FS.writeBinFile (nameOf path) (encode c.history.write)
  conclude { status := 0, errors := c.errors }

/-- Carries out a task. -/
def carryOut (around : Surroundings) (task : CommandLine.Task) : IO UInt32 := do
  let interactive := (← (← IO.getStdin).isTty) && (← (← IO.getStdout).isTty)
  match task.program with
  | none =>
    if interactive then runConsole task.session
    else
      let (problem, s) ← batch task.session
      conclude (CommandLine.outcome problem s)
  | some name =>
    match CommandLine.load around task.session name with
    | .error outcome => conclude outcome
    | .ok s =>
      let (problem, s) ← execute s CommandLine.runLine
      if interactive then runConsole (← present (s.report problem))
      else conclude (CommandLine.outcome problem s)

/-- Starts the host. -/
def start (arguments : List Bytes) : IO UInt32 := do
  let home := ((← IO.getEnv "HOME").filter (!·.isEmpty)).map utf8
  let files ← readFiles (CommandLine.paths home arguments)
  let around : Surroundings := { home, files, clock := ← IO.monoNanosNow }
  match CommandLine.prepare around arguments with
  | .error outcome => conclude outcome
  | .ok task => carryOut around task

end LineBasic.Main

/-- Starts the host with the arguments it was given. -/
def main (arguments : List String) : IO UInt32 :=
  LineBasic.Main.start (arguments.map LineBasic.utf8)
