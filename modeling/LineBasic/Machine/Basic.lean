import LineBasic.Builtin
import LineBasic.Event
import LineBasic.Grid
import LineBasic.Program.Flow
import LineBasic.Random
import LineBasic.State

/-!
# The machine

The machine executes one line at a time, statement by statement. It holds the stored program, what
the program has computed, what it has shown, and, while an `INPUT` is pending, the reply it was
given.

## Main definitions

* `Options` — bounds and seed of a machine
* `Function` — a user function
* `LogRecord` — what is recorded about a run
* `Machine` — the machine
* `Machine.new` — a machine before its first line
-/

namespace LineBasic

/-- The bounds that a program runs in, and the seed of its random numbers. -/
structure Options where
  maxCalls : Int := 256
  maxLoops : Int := 256
  maxElements : Int := 1000000
  seed : Int := 1
deriving DecidableEq

namespace Options

/-- A bound that is not positive is replaced by the usual one. -/
def bound (n usual : Int) : Int :=
  if n ≤ 0 then usual else n

/-- Replaces the bounds that are not positive. -/
def normalize (o : Options) : Options :=
  { o with
    maxCalls := bound o.maxCalls 256
    maxLoops := bound o.maxLoops 256
    maxElements := bound o.maxElements 1000000 }

end Options

/-- A user function: its parameters, of which there is at least one, and where its body starts. -/
structure Function where
  firstParam : Name
  otherParams : List Name
  body : Location
deriving DecidableEq

/-- The parameters of a function. -/
def Function.params (f : Function) : List Name :=
  f.firstParam :: f.otherParams

/-- What is recorded about a run. -/
inductive LogRecord where
  /-- The machine went from one state to another. -/
  | state (source target : State)
  /-- A command is executed. -/
  | command (name : Bytes)
  /-- A statement is executed. -/
  | statement (location : Location)
  /-- A statement on this line failed. -/
  | failure (fault : Fault) (line : Line)
deriving DecidableEq

/-- The machine. -/
structure Machine where
  maxElements : Int
  program : Program
  state : State := .idle
  scalars : Std.ExtTreeMap Name Value := ∅
  arrays : Std.ExtTreeMap Name Grid := ∅
  functions : Std.ExtTreeMap Name Function := ∅
  random : Random
  lastRandom : Float
  output : Array Event := #[]
  tracing : Bool := false
  /-- The reply that a suspended `INPUT` has not yet taken. -/
  reply : Option Bytes := none
  /-- What the pending `INPUT` asks. -/
  prompt : Bytes := []
  /-- Where an `INPUT` was suspended inside the branch of an `IF`. -/
  branchInput : Option Location := none
  log : Array LogRecord := #[]

namespace Machine

/-- A machine before its first line. The first random number is drawn at once. -/
def new (options : Options) : Machine :=
  let o := options.normalize
  let (x, random) := (Random.ofSeed o.seed).draw
  { maxElements := o.maxElements
    program := { maxCalls := o.maxCalls.toNat, maxLoops := o.maxLoops.toNat }
    random
    lastRandom := x }

/-- Adds to the log. -/
def record (m : Machine) (r : LogRecord) : Machine :=
  { m with log := m.log.push r }

/-- Adds to the output. -/
def emit (m : Machine) (e : Event) : Machine :=
  { m with output := m.output.push e }

/-- Changes the state; a change is recorded. -/
def enter (m : Machine) (s : State) : Machine :=
  { (if m.state = s then m else m.record (.state m.state s)) with state := s }

/-- Takes the output that has been shown since it was last taken. -/
def takeOutput (m : Machine) : List Event × Machine :=
  (m.output.toList, { m with output := #[] })

/-- The value of a variable outside all functions. -/
def global (m : Machine) (name : Name) : Value :=
  m.scalars[name]?.getD (.initial name)

/-- The value of a variable where the program stands: parameters of pending calls come first. -/
def lookup (m : Machine) (name : Name) : Value :=
  (m.program.param? name).getD (m.global name)

/-- Forgets all variables, arrays and functions. -/
def clear (m : Machine) : Machine :=
  { m with scalars := ∅, arrays := ∅, functions := ∅, branchInput := none }

end Machine

end LineBasic
