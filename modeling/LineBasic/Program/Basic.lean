import LineBasic.Fault
import Std.Data.ExtTreeMap

/-!
# Programs

A program owns its numbered lines and everything that says where its execution stands: the current
location, the pending calls and loops, the place in the data, and the point where it was
interrupted.

The tokens of the current line are looked up when the location moves to a line. Storing a line does
not touch them: whoever stores a line moves the location before executing anything else.

## Main definitions

* `Frame`, `Loop` — a pending call, a pending `FOR`
* `Program` — lines and control state
* `Program.store` — stores or deletes a line
* `Program.listing` — the text of the stored lines
* `Program.moveTo?` — moves to a location
* `Program.advance?` — moves to the next line
-/

namespace LineBasic

/-- The values of a function's parameters. -/
abbrev Bindings := Std.ExtTreeMap Name Value

/-- A pending call. -/
inductive Frame where
  /-- A `GOSUB`: where to return to. -/
  | gosub (ret : Location)
  /-- The call of a function: where it was called from, and its arguments. -/
  | function (ret : Location) (params : Bindings)

namespace Frame

/-- Where a call returns to. -/
def ret : Frame → Location
  | .gosub ret => ret
  | .function ret _ => ret

/-- The arguments of a call. -/
def params : Frame → Bindings
  | .gosub _ => ∅
  | .function _ params => params

/-- Whether a function was called. -/
def isFunction : Frame → Bool
  | .gosub _ => false
  | .function .. => true

end Frame

/-- A pending loop: where its body starts, its variable, its limit and its step. -/
structure Loop where
  resume : Location
  name : Name
  limit : Float
  step : Float

/-- Whether a loop goes round again with a value of its variable. -/
def Loop.continues (l : Loop) (x : Float) : Bool :=
  (0 ≤ l.step && x ≤ l.limit) || (l.step < 0 && l.limit ≤ x)

/-- The stored lines and the state of their execution. Calls and loops are listed from the
innermost outwards. -/
structure Program where
  maxCalls : Nat
  maxLoops : Nat
  lines : Std.ExtTreeMap Nat (List Token) := ∅
  immediate : List Token := []
  location : Location := ⟨.immediate, 0⟩
  current : List Token := []
  calls : List Frame := []
  loops : List Loop := []
  dataIndex : Nat := 0
  breakpoint : Option Location := none
  jumped : Bool := false

namespace Program

/-- The tokens of a line. -/
def tokensOf? (p : Program) : Line → Option (List Token)
  | .immediate => some p.immediate
  | .numbered n => p.lines[n]?

/-- Whether a line is stored. -/
def hasLine (p : Program) (n : Nat) : Bool :=
  p.lines.contains n

/-- Stores a line, or deletes it when it has no tokens. The data are read from the start again, and
an interrupted run cannot be continued. -/
def store (p : Program) (n : Nat) (tokens : List Token) : Program :=
  { p with
    lines := if tokens.isEmpty then p.lines.erase n else p.lines.insert n tokens
    dataIndex := 0
    breakpoint := none }

/-- A line as it is listed. -/
def lineListing (n : Nat) (tokens : List Token) : Bytes :=
  Bytes.decimal n ++ tokens.flatMap (fun t => 0x20 :: t.listing) ++ [0x0a]

/-- The stored lines in ascending order. -/
def listing (p : Program) : Bytes :=
  p.lines.toList.flatMap fun (n, tokens) => lineListing n tokens

/-- Moves to a location of a line that exists; a location beyond the line's end is its end. -/
def moveTo? (p : Program) (loc : Location) : Option Program :=
  (p.tokensOf? loc.line).map fun tokens =>
    { p with location := ⟨loc.line, min loc.index tokens.length⟩, current := tokens }

/-- Moves to the lowest line. -/
def startAtFirst? (p : Program) : Option Program :=
  p.lines.minKey?.bind fun n => p.moveTo? (Line.numbered n).start

/-- Moves to the line after the current one; the immediate line has none after it. -/
def advance? (p : Program) : Option Program :=
  match p.location.line with
  | .immediate => none
  | .numbered n => (p.lines.getKeyGT? n).bind fun m => p.moveTo? (Line.numbered m).start

/-- Those calls or loops, from the outermost inwards, that come before the first one that points
into the immediate line. -/
def numberedPart {α : Type} (location : α → Location) (stack : List α) : List α :=
  (stack.reverse.takeWhile fun x => (location x).line.isNumbered).reverse

/-- Makes `tokens` the immediate line and moves to its start. What an earlier immediate line left on
the stacks is dropped. -/
def setImmediate (p : Program) (tokens : List Token) : Program :=
  { p with
    immediate := tokens
    calls := numberedPart Frame.ret p.calls
    loops := numberedPart Loop.resume p.loops
    location := ⟨.immediate, 0⟩
    current := tokens }

/-- Drops the pending calls and loops. -/
def resetStacks (p : Program) : Program :=
  { p with calls := [], loops := [] }

/-- Reads the data from the start again. -/
def restore (p : Program) : Program :=
  { p with dataIndex := 0 }

/-- Forgets where the run was interrupted. -/
def clearBreakpoint (p : Program) : Program :=
  { p with breakpoint := none }

/-- Drops all that an earlier run left behind. -/
def reset (p : Program) : Program :=
  p.resetStacks.restore.clearBreakpoint

/-- Forgets that a statement has transferred control. -/
def clearJumped (p : Program) : Program :=
  { p with jumped := false }

/-- The arguments visible under a name: the innermost call that binds it wins, whichever function
that is. -/
def param? (p : Program) (name : Name) : Option Value :=
  p.calls.findSome? fun f => f.params[name]?

/-- The fields of all stored data, in line order, each with its line. -/
def data (p : Program) : List (Value × Nat) :=
  p.lines.toList.flatMap fun (n, tokens) =>
    tokens.flatMap fun
      | .data values => values.map (·, n)
      | _ => []

end Program

end LineBasic
