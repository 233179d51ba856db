import LineBasic.Host.Banner
import LineBasic.Host.Batch
import LineBasic.Host.Flags

/-!
# The command line

Started with a program file, the host runs it; started without, it takes its lines from the standard
input. Replies come from the standard input in both cases. The configuration file comes first, and
flags win over it.

## Main definitions

* `Surroundings` — what a host finds when it is started
* `Outcome` — what it leaves behind
* `CommandLine.prepare` — what is to be done for a command line
* `CommandLine.run` — does it
-/

namespace LineBasic

/-- What a host finds when it is started. -/
structure Surroundings where
  home : Option Bytes := none
  files : FileReader := fun _ => .error .notFound
  clock : Int := 0
  usage : Statistics.Usage := {}

/-- What a host leaves behind: its status, what it has written, and what it has reported. -/
structure Outcome where
  status : Nat
  output : List Chunk := []
  errors : Bytes := []

namespace CommandLine

/-- Applies flags to the settings. -/
def override (config : Config) (flags : Flags) : Config :=
  { config with
    stats := config.stats || flags.stats
    dumpTokens := config.dumpTokens || flags.dump
    maxSteps := if 0 ≤ flags.maxSteps then flags.maxSteps else config.maxSteps
    seed := if flags.seed ≠ 0 then flags.seed else config.seed }

/-- The configuration file, and whether it was asked for. -/
def configPath (home : Option Bytes) (flags : Flags) : Bytes × Bool :=
  if flags.config.isEmpty then ((Config.defaultPath home).getD [], false) else (flags.config, true)

/-- The settings that a host is started with. -/
def settings (around : Surroundings) (flags : Flags) : Except Config.LoadRefusal Config := do
  let (path, asked) := configPath around.home flags
  let config ← Config.load around.home around.files path asked
  return override config flags

/-- The files that a command line needs. -/
def paths (home : Option Bytes) (arguments : List Bytes) : List Bytes :=
  match Flags.read {} arguments with
  | .error _ => []
  | .ok (flags, names) => (configPath home flags).1 :: names.filterMap Path.programName?

/-- A session that is ready for its lines, and the program file to run in it, if there is one. -/
structure Task where
  session : Session
  program : Option Bytes

/-- What is to be done for a command line; where nothing is to be done, the outcome. -/
def prepare (around : Surroundings) (arguments : List Bytes) : Except Outcome Task :=
  match Flags.read {} arguments with
  | .error .help => .error { status := 0, errors := Flags.usage }
  | .error why => .error { status := 2, errors := why.text ++ [0x0a] ++ Flags.usage }
  | .ok (flags, names) =>
    if flags.version then .error { status := 0, output := [.text (Banner.line 0 [])] }
    else if 1 < names.length then .error { status := 2, errors := Flags.usage }
    else
      match settings around flags with
      | .error why => .error { status := 1, errors := why.text ++ [0x0a] }
      | .ok config =>
        .ok
          { session := { Session.new config around.clock with usage := around.usage }
            program := names.head? }

/-- The outcome of a session that has ended, perhaps with a problem. -/
def outcome (problem : Option Problem) (s : Session) : Outcome where
  status := if problem.isSome then 1 else 0
  output := (s.report problem).output

/-- Loads a program file. A problem with it is reported apart from what a program shows. -/
def load (around : Surroundings) (s : Session) (name : Bytes) : Except Outcome Session :=
  match s.loadFile around.files name with
  | (some problem, s) =>
    .error { status := 1, output := s.output, errors := Problem.report (some problem) }
  | (none, s) => .ok s

/-- The line that runs a program file. -/
def runLine : Bytes := utf8 "RUN"

/-- Carries out a task with the standard input. -/
def carryOut (around : Surroundings) (input : List Reply) (task : Task) :
    Except Outcome Outcome := do
  match task.program with
  | some name =>
    let s ← load around task.session name
    let (problem, _, s) := s.execute runLine input
    return outcome problem s
  | none =>
    let (problem, s) := task.session.batch input
    return outcome problem s

/-- Starts a host with a command line and a standard input. -/
def run (around : Surroundings) (arguments : List Bytes) (input : Bytes) : Outcome :=
  let result := do
    let task ← prepare around arguments
    carryOut around (Reply.ofFile input) task
  match result with
  | .ok outcome | .error outcome => outcome

end CommandLine

end LineBasic
