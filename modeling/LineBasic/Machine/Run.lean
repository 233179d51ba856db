import LineBasic.Machine.Command

/-!
# Running

A run takes steps for as long as the machine is running. It is broken off when it is cancelled from
outside or when it would take more steps than it may; both are looked at before each step, and
cancelling comes first. Hosts add something to each step, such as showing the output, so a run is
described for anything that steps.

## Main definitions

* `Stepper` — something that runs in steps
* `RunEnd` — how a run ended
* `Stepper.run` — takes steps within a bound
* `Machine.runSteps` — runs a machine
-/

namespace LineBasic

/-- Something that runs in steps and can be broken off between them. -/
structure Stepper (σ : Type) where
  isRunning : σ → Bool
  isCancelled : σ → Bool
  interrupt : σ → σ
  step : σ → Option Fault × σ

/-- How a run ended. -/
inductive RunEnd where
  /-- It stopped running by itself. -/
  | stopped
  /-- A statement failed. -/
  | failed (fault : Fault)
  /-- It would have taken too many steps. -/
  | stepLimit
  /-- It was cancelled. -/
  | cancelled
deriving DecidableEq

namespace Stepper

/-- Takes steps, after `steps` of them, for at most `turns` turns, and reports how many were taken
in all. No bound on the steps is meant by `limit = 0`. -/
def run {σ : Type} (s : Stepper σ) (limit : Nat) : (turns steps : Nat) → σ → RunEnd × Nat × σ
  | 0, steps, x => (.stopped, steps, x)
  | turns + 1, steps, x =>
    if !s.isRunning x then (.stopped, steps, x)
    else if s.isCancelled x then (.cancelled, steps, s.interrupt x)
    else if 0 < limit && limit ≤ steps then (.stepLimit, steps, s.interrupt x)
    else
      match s.step x with
      | (some fault, x) => (.failed fault, steps + 1, x)
      | (none, x) => run s limit turns (steps + 1) x

/-- The number of turns that covers every run with a given limit. Without a limit it is more than
any run can take. -/
def turns (limit : Nat) : Nat :=
  if limit = 0 then 0x4000000000000000 else limit + 1

/-- Takes steps until the run ends or `limit` steps have been taken. -/
def runAll {σ : Type} (s : Stepper σ) (limit : Nat) (x : σ) : RunEnd × Nat × σ :=
  s.run limit (turns limit) 0 x

end Stepper

namespace Machine

/-- A machine that is cancelled after a number of steps. -/
structure Timed where
  machine : Machine
  steps : Nat := 0
  cancelAfter : Option Nat := none

/-- The steps of a machine. -/
def stepper : Stepper Timed where
  isRunning t := t.machine.state = .running
  isCancelled t := t.cancelAfter.any (· ≤ t.steps)
  interrupt t := { t with machine := t.machine.interrupt }
  step t :=
    let (fault, machine) := t.machine.step
    (fault, { t with machine, steps := t.steps + 1 })

/-- Runs a machine for at most `limit` steps, or without a bound if it is 0. -/
def runSteps (m : Machine) (limit : Nat) (cancelAfter : Option Nat) : RunEnd × Nat × Machine :=
  let (ending, steps, t) := stepper.runAll limit { machine := m, cancelAfter }
  (ending, steps, t.machine)

end Machine

end LineBasic
