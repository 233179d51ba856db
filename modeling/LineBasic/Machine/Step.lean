import LineBasic.Machine.Statement

/-!
# One step

A step executes exactly one statement. Whatever the statement does, the machine is afterwards in a
well-defined state: a fault ends the run, drops the pending calls and loops, the breakpoint and the
pending reply, and is reported for the line on which the statement started.

## Main definitions

* `Machine.execute` — the statement at the location and what follows it on the line
* `Machine.step` — one step of a running machine
* `Machine.interrupt` — a break from outside
* `Machine.provideInput?` — a reply to the pending `INPUT`
-/

namespace LineBasic.Machine

/-- Executes the statement at the location and takes the colon after it. An `ELSE` after a statement
ends the line. -/
def execute : Exec Unit := do
  modifyProgram fun p => p.skip (p.rest.takeWhile (· == .mark .colon)).length
  if (← get).program.atEnd then return
  modifyProgram Program.clearJumped
  statement (← get).program.rest.length
  let p := (← get).program
  if p.jumped || p.atEnd then return
  if ← accept (.mark .colon) then return
  if p.peekKind? = some (.keyword .ELSE) then modifyProgram Program.discardRest
  else fail (.unexpected p.peekKind?)

/-- Marks where a run is interrupted, and shows it. -/
def markBreak (m : Machine) : Machine :=
  let m := { m with program := m.program.interrupt }
  m.emit (.broke m.program.location.line)

/-- Ends a run with a fault of the statement that started on `line`. -/
def abort (m : Machine) (cause : Cause) (line : Line) : Fault × Machine :=
  let fault := cause.at line
  let m :=
    { m with
      program := m.program.resetStacks.clearBreakpoint
      reply := none
      branchInput := none }
  (fault, (m.enter .idle).record (.failure fault line))

/-- Moves to the next line if the current one is used up; `none` if there is no next line. -/
def toStatement? (m : Machine) : Option Machine :=
  if m.program.atEnd then m.program.advance?.map fun p => { m with program := p } else some m

/-- Shows and records that a statement is about to be executed. -/
def announce (m : Machine) : Machine :=
  let loc := m.program.location
  let m := if m.tracing && loc.line.isNumbered then m.emit (.trace loc.line) else m
  m.record (.statement loc)

/-- Executes one statement of a running machine, and says what went wrong if it failed. In any other
state nothing happens. -/
def step (m : Machine) : Option Fault × Machine :=
  if m.state ≠ .running then (none, m)
  else
    match m.toStatement? with
    | none => (none, m.enter .idle)
    | some m =>
      let line := m.program.location.line
      match execute m.announce with
      | .ok () m =>
        match m.toStatement? with
        | some m => (none, m)
        | none => (none, m.enter .idle)
      | .error (.signal .finish) m => (none, m.enter .idle)
      | .error (.signal .stop) m => (none, m.markBreak.enter .idle)
      | .error (.signal .awaitInput) m => (none, m.enter .awaitingInput)
      | .error (.fault cause) m =>
        let (fault, m) := m.abort cause line
        (some fault, m)

/-- A break from outside, between two statements. -/
def interrupt (m : Machine) : Machine :=
  if m.state = .running ∨ m.state = .awaitingInput then
    { m.markBreak with reply := none }.enter .idle
  else m

/-- Gives a reply to the pending `INPUT`, which is then executed again; `none` if there is none. -/
def provideInput? (m : Machine) (text : Bytes) : Option Machine :=
  if m.state = .awaitingInput then
    some ({ m with reply := some (Bytes.trimLineEnds text) }.enter .running)
  else none

end LineBasic.Machine
