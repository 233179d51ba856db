import LineBasic.Program.Cursor

/-!
# Transfer of control

Jumps look their target up when they happen, since lines may be edited at any time between runs.
Calls and loops remember locations; the stacks that hold them are bounded.

## Main definitions

* `Program.goTo`, `Program.gosub`, `Program.returnFromGosub` — jumps and subroutines
* `Program.pushFunction`, `Program.popFunction` — calls of functions
* `Program.startLoop`, `Program.endLoop` — `FOR` and `NEXT`
* `Program.interrupt`, `Program.continueRun` — interrupting and continuing a run
* `Program.nextDatum` — the next field of data
-/

namespace LineBasic.Program

/-- Moves to the start of a numbered line. -/
def goTo (n : Nat) : Action Unit := fun p =>
  match p.moveTo? (Line.numbered n).start with
  | some p' => .ok () { p' with jumped := true }
  | none => .error .undefinedStatement p

/-- Adds a pending call, within the bound on their number. -/
def pushFrame (f : Frame) : Action Unit := fun p =>
  if p.maxCalls ≤ p.calls.length then .error .stackOverflow p
  else .ok () { p with calls := f :: p.calls }

/-- Calls the subroutine at a numbered line. -/
def gosub (n : Nat) : Action Unit := do
  let p ← get
  if !p.hasLine n then throw .undefinedStatement
  pushFrame (.gosub p.location)
  goTo n

/-- Returns from the innermost call, which must be a `GOSUB`. The call is over even if the line to
return to is gone. -/
def returnFromGosub : Action Unit := fun p =>
  match p.calls with
  | .gosub ret :: calls =>
    let p := { p with calls }
    match p.moveTo? ret with
    | some p' => .ok () { p' with jumped := true }
    | none => .error .undefinedStatement p
  | _ => .error .returnWithoutGosub p

/-- Calls a function: binds its parameters and moves to its body. If there is no body, nothing
changes. -/
def pushFunction (params : Bindings) (body : Location) : Action Unit := fun p =>
  match pushFrame (.function p.location params) p with
  | .error e p => .error e p
  | .ok () p' =>
    match p'.moveTo? body with
    | some p'' => .ok () p''
    | none => .error .undefinedStatement p

/-- Returns from a function. -/
def popFunction : Action Unit := fun p =>
  match p.calls with
  | .function ret _ :: calls =>
    let p := { p with calls }
    match p.moveTo? ret with
    | some p' => .ok () p'
    | none => .error (.internal .callerLineVanished) p
  | _ => .error (.internal .functionFrameMissing) p

/-- The innermost loop over a variable, and the loops outside it. -/
def splitAtLoop? (name : Name) : List Loop → Option (Loop × List Loop)
  | [] => none
  | l :: loops => if l.name = name then some (l, loops) else splitAtLoop? name loops

/-- Starts a loop whose body is at the location. A loop over the same variable is forgotten together
with all loops inside it, even when there is then no room for the new one. -/
def startLoop (name : Name) (limit step : Float) : Action Unit := fun p =>
  let loops :=
    match splitAtLoop? name p.loops with
    | some (_, outer) => outer
    | none => p.loops
  if p.maxLoops ≤ loops.length then .error .stackOverflow { p with loops }
  else .ok () { p with loops := ⟨p.location, name, limit, step⟩ :: loops }

/-- Ends a round of the loop over `name`, or of the innermost loop when `name` is empty, and gives
the next value of its variable. Loops inside it are forgotten. When the loop goes round again, it
moves back to its body. -/
def endLoop (name : Name) (value : Float) : Action Float := fun p =>
  let found :=
    match name, p.loops with
    | [], l :: outer => some (l, outer)
    | [], [] => none
    | _, loops => splitAtLoop? name loops
  match found with
  | none => .error .nextWithoutFor p
  | some (l, outer) =>
    let x := value + l.step
    if l.continues x then
      let p := { p with loops := l :: outer }
      match p.moveTo? l.resume with
      | some p' => .ok x { p' with jumped := true }
      | none => .error .undefinedStatement p
    else .ok x { p with loops := outer }

/-- The variable of the innermost loop. -/
def loopName? (p : Program) : Option Name :=
  p.loops.head?.map Loop.name

/-- Marks the location as the point where the run was interrupted. A location in the immediate line
is not marked. -/
def interrupt (p : Program) : Program :=
  if p.location.line.isNumbered then { p with breakpoint := some p.location } else p

/-- Moves to the point where the run was interrupted, and forgets that point. -/
def continueRun : Action Unit := fun p =>
  match p.breakpoint with
  | none => .error .cannotContinue p
  | some loc =>
    match p.clearBreakpoint.moveTo? loc with
    | some p' => .ok () p'
    | none => .error .cannotContinue p.clearBreakpoint

/-- The next field of data and its line. -/
def nextDatum : Action (Value × Nat) := fun p =>
  match p.data[p.dataIndex]? with
  | some d => .ok d { p with dataIndex := p.dataIndex + 1 }
  | none => .error .outOfData p

end LineBasic.Program
