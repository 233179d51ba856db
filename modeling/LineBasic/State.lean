import LineBasic.Text.Bytes

/-!
# Machine states and signals

Between two statements the machine is in one of four states. A statement that ends, breaks or
suspends the run does so by a signal.

## Main definitions

* `State` — idle, running, waiting for a reply, or asking to be replaced
* `Signal` — the ways in which a statement leaves a run without a fault
-/

namespace LineBasic

/-- The state of a machine between two statements. -/
inductive State where
  /-- Nothing is being executed. -/
  | idle
  /-- A line is being executed. -/
  | running
  /-- An `INPUT` waits for its reply. -/
  | awaitingInput
  /-- `NEW` was given: the host has to replace the machine. -/
  | newRequested
deriving DecidableEq

namespace State

/-- The name of a state. -/
def name : State → Bytes
  | .idle => utf8 "Idle"
  | .running => utf8 "Running"
  | .awaitingInput => utf8 "AwaitingInput"
  | .newRequested => utf8 "NewInterpreterRequested"

/-- The states in their customary order. -/
def all : List State :=
  [.idle, .running, .awaitingInput, .newRequested]

end State

/-- How a statement leaves a run without a fault. -/
inductive Signal where
  /-- `END`: the run is over. -/
  | finish
  /-- `STOP`: the run may be continued. -/
  | stop
  /-- `INPUT`: the run waits for a reply. -/
  | awaitInput
deriving DecidableEq

namespace Signal

/-- The name of a signal. -/
def name : Signal → Bytes
  | .finish => utf8 "end of program"
  | .stop => utf8 "stop"
  | .awaitInput => utf8 "awaiting input"

/-- The signals in their customary order. -/
def all : List Signal :=
  [.finish, .stop, .awaitInput]

end Signal

end LineBasic
