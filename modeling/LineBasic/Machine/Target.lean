import LineBasic.Machine.Eval

/-!
# Assignment

`LET`, `INPUT` and `READ` store a value in a target: a scalar variable or an array element. The
subscripts of a target are evaluated before the value. The value must have the type that the name
says.

## Main definitions

* `Target` — where a value is stored
* `Machine.target` — the target at the location
* `Machine.assign` — stores a value
-/

namespace LineBasic

/-- Where a value is stored. -/
inductive Target where
  /-- A scalar variable. -/
  | scalar (name : Name)
  /-- An array element. -/
  | element (name : Name) (index : List Int)
deriving DecidableEq

/-- The name of a target. -/
def Target.name : Target → Name
  | .scalar name => name
  | .element name _ => name

namespace Machine

/-- Takes the target at the location. -/
def target : Eval Target := do
  let name ← Program.nextName
  if ← Program.accept (.mark .lparen) then
    return .element name (← subscripts)
  else
    return .scalar name

/-- Stores a value in a variable. -/
def setVariable (name : Name) (v : Value) : Eval Unit :=
  modify fun m => { m with scalars := m.scalars.insert name v }

/-- Stores a value in a target. -/
def assign (t : Target) (v : Value) : Eval Unit := do
  checkFits t.name v
  match t with
  | .scalar name => setVariable name v
  | .element name index =>
    let g ← arrayFor name index.length
    let g ← ofExcept (g.set index v)
    modify fun m => { m with arrays := m.arrays.insert name g }

end Machine

end LineBasic
