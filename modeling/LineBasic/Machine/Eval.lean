import LineBasic.Expr.Parser
import LineBasic.Machine.Basic

/-!
# Evaluation

An expression is evaluated from left to right, and the location moves along as its tokens are used,
so that a fault leaves the location where it was found.

A user function is called by binding its arguments, moving to its body and evaluating the expression
there; afterwards the location is back behind the call, whatever happened. The body sees the
arguments of all pending calls. How deep calls may nest is bounded, and evaluation recurs on that
bound.

## Main definitions

* `Machine.Eval` — evaluation, which may fail and keeps what was done before
* `Machine.evalWith` — the value of an expression, given how bodies of functions are evaluated
* `Machine.bodyAt` — the value of a function within so many nested calls
* `Machine.expression` — the value of the expression at the location
-/

namespace LineBasic.Machine

/-- Evaluation on a machine. What was done before a failure stays done. -/
abbrev Eval := EStateM Cause Machine

/-- An action of the program as one of the machine. -/
def onProgram {α : Type} (x : Program.Action α) : Eval α := fun m =>
  match x m.program with
  | .ok a p => .ok a { m with program := p }
  | .error e p => .error e { m with program := p }

instance : MonadLift Program.Action Eval := ⟨onProgram⟩

/-- A result that does not touch the machine. -/
def ofExcept {α : Type} (x : Except Cause α) : Eval α := fun m =>
  match x with
  | .ok a => .ok a m
  | .error e => .error e m

/-- Moves past `n` tokens. -/
def skip (n : Nat) : Eval Unit :=
  modify fun m => { m with program := m.program.skip n }

/-- Takes the closing parenthesis. -/
def takeClosing : Closing → Eval Unit
  | .closed => skip 1
  | .ended => throw .endOfInput
  | .blocked => throw (.expected (.mark .rparen))

/-- Fails unless a value may be stored under a name. -/
def checkFits (name : Name) (v : Value) : Eval Unit :=
  if v.fits name then pure () else throw .typeMismatch

/-- The value of a built-in function. -/
def applyBuiltin (b : Builtin) (args : List Value) : Eval Value :=
  match b, args with
  | .rnd, [v] => do
    if ← ofExcept (Builtin.draws v) then
      modify fun m =>
        let (x, random) := m.random.draw
        { m with lastRandom := x, random }
    return .num (← get).lastRandom
  | b, args => ofExcept (b.value args)

/-- The number of elements along each axis of an array that was not dimensioned. -/
def implicitSize : Int := 11

/-- The array of a name. At its first use it is made with as many axes as it has subscripts. -/
def arrayFor (name : Name) (axes : Nat) : Eval Grid := do
  let m ← get
  match m.arrays[name]? with
  | some g => return g
  | none =>
    let g ← ofExcept (Grid.make name.isString (List.replicate axes implicitSize) m.maxElements)
    set { m with arrays := m.arrays.insert name g }
    return g

/-- The indices that subscripts denote. -/
def indices (args : List Value) : Except Cause (List Int) :=
  args.mapM fun v => do return ((← Number.subscript (← v.number)) : Int)

mutual

/-- The value of an expression, given how the body of a named function is evaluated once the
location is at it. -/
def evalWith (body : Name → Eval Value) : Expr → Eval Value
  | .number x => do
    skip 1
    return .num x
  | .string s => do
    skip 1
    return .str s
  | .scalar name => do
    skip 1
    return (← get).lookup name
  | .paren e close => do
    skip 1
    let v ← evalWith body e
    takeClosing close
    return v
  | .unary op e => do
    skip 1
    let v ← evalWith body e
    ofExcept (op.apply v)
  | .binary op left right => do
    let v ← evalWith body left
    skip 1
    let w ← evalWith body right
    ofExcept (op.apply v w)
  | .call name args => do
    skip 2
    match Builtin.find? name with
    | some b =>
      let vs ← evalArguments body args
      applyBuiltin b vs
    | none =>
      match (← get).functions[name]? with
      | some f =>
        let params ← bindArguments body f.firstParam f.otherParams args ∅
        onProgram (Program.pushFunction params f.body)
        body name
      | none =>
        let vs ← evalArguments body args
        let index ← ofExcept (indices vs)
        let g ← arrayFor name index.length
        ofExcept (g.get index)
  | .missing => throw .endOfInput
  | .misplaced t => do
    skip 1
    throw (.unexpected t.kind)

/-- The values of an argument list, up to its closing parenthesis. -/
def evalArguments (body : Name → Eval Value) : Arguments → Eval (List Value)
  | .last e close => do
    let v ← evalWith body e
    takeClosing close
    return [v]
  | .more e rest => do
    let v ← evalWith body e
    skip 1
    return v :: (← evalArguments body rest)

/-- Binds the values of an argument list to the parameters of a function, of which there must be as
many. -/
def bindArguments (body : Name → Eval Value) (p : Name) (ps : List Name) :
    Arguments → Bindings → Eval Bindings
  | .last e close, bound => do
    let v ← evalWith body e
    checkFits p v
    match ps, close with
    | [], close =>
      takeClosing close
      return bound.insert p v
    | _ :: _, .ended => throw .endOfInput
    | _ :: _, _ => throw (.expected (.mark .comma))
  | .more e rest, bound => do
    let v ← evalWith body e
    checkFits p v
    match ps with
    | [] => throw (.expected (.mark .rparen))
    | q :: qs =>
      skip 1
      bindArguments body q qs rest (bound.insert p v)

end

/-- Runs `x`, and then returns from the function in which it ran, even if it failed; the first fault
counts. -/
def inFunction {α : Type} (x : Eval α) : Eval α := fun m =>
  match x m with
  | .ok a m =>
    match onProgram Program.popFunction m with
    | .ok () m => .ok a m
    | .error e m => .error e m
  | .error e m =>
    match onProgram Program.popFunction m with
    | .ok () m => .error e m
    | .error _ m => .error e m

/-- The value of the function `name`, with `x` as the evaluation of its body: the expression must
take up the whole statement, and its value must have the type that the name says. -/
def evalBody (x : Eval Value) (name : Name) : Eval Value :=
  inFunction do
    let v ← x
    let p := (← get).program
    if !p.atStatementEnd then throw (.unexpected p.peekKind?)
    checkFits name v
    return v

/-- The value of a function whose body is at the location, when calls inside it nest at most
`depth - 1` deep. -/
def bodyAt : (depth : Nat) → Name → Eval Value
  | 0 => fun _ => throw .stackOverflow
  | depth + 1 => evalBody do evalWith (bodyAt depth) (Expr.read (← get).program.rest)

/-- How many more calls may be pending. -/
def callsLeft (m : Machine) : Nat :=
  m.program.maxCalls - m.program.calls.length

/-- The value of the expression at the location. -/
def expression : Eval Value := do
  let m ← get
  evalWith (bodyAt m.callsLeft) (Expr.read m.program.rest)

/-- The number that the expression at the location is. -/
def numberExpression : Eval Float := do
  ofExcept (← expression).number

/-- The subscripts at the location, up to their closing parenthesis. -/
def subscripts : Eval (List Int) := do
  let m ← get
  let vs ← evalArguments (bodyAt m.callsLeft) (Arguments.read m.program.rest).phrase
  ofExcept (indices vs)

end LineBasic.Machine
