import LineBasic.Proofs.Machine.OutputActions

/-!
# Execution without bounds

The machine evaluates expressions that were read before, it counts how many calls may still be
pending, and its loops over a line take a bound on the number of their rounds. Here is the same step
with none of this: evaluation reads a token when it needs it and starts again at the body of a
function when it calls one, and each loop goes round for as long as its condition holds. What is
defined here need not end, and has no result where it does not.

## Main definitions

* `Unbounded` — actions that need not end
* `Unbounded.Task` — a function of the evaluator, with what it is given
* `Unbounded.Task.run` — evaluation at the location
* `Unbounded.Loop.run` — loops over a line
* `Unbounded.Part.run` — executes one statement, or the branch of an `IF`
* `Unbounded.step` — one step of a running machine
-/

namespace LineBasic

/-- Moves on from line to line for as long as the current one is used up; `none` behind the last
line. -/
def Program.toStatement (p : Program) : Option (Option Program) :=
  if p.atEnd then
    match p.advance? with
    | some q => q |>.toStatement
    | none => some none
  else some (some p)
partial_fixpoint

/-- An action on a machine that need not end. What was done before a failure stays done. -/
abbrev Unbounded (ε α : Type) := ExceptT ε (StateT Machine Option) α

namespace Unbounded

open Machine

variable {ε α : Type}

/-- An action that ends, as one that need not. -/
def ofEnding (x : EStateM ε Machine α) : Unbounded ε α := fun m =>
  match x m with
  | .ok a m => some (.ok a, m)
  | .error e m => some (.error e, m)

instance : MonadLift (EStateM ε Machine) (Unbounded ε) := ⟨ofEnding⟩

/-- Evaluation as part of execution. -/
def toExec (x : Unbounded Cause α) : Unbounded Stop α := fun m =>
  (x m).map fun (r, m) => (r.mapError Stop.fault, m)

instance : MonadLift (Unbounded Cause) (Unbounded Stop) := ⟨toExec⟩

/-! ### Evaluation -/

/-- What is done when the expression that is the body of a function has ended. -/
def leave (name : Name) (r : Except Cause Value) : Eval Value :=
  inFunction do
    let v ← Machine.ofExcept r
    let p := (← get).program
    if !p.atStatementEnd then throw (.unexpected p.peekKind?)
    checkFits name v
    return v

/-- A function of the evaluator, with what it is given. -/
inductive Task where
  /-- The value of the expression at the location, up to an operator below the level. -/
  | value (level : Nat)
  /-- Goes on behind an operand with the value `v`. -/
  | operators (level : Nat) (v : Value)
  /-- The value of the operand at the location, with the operators in front of it. -/
  | operand
  /-- The value of a call or of an array element, behind its opening parenthesis. -/
  | call (name : Name)
  /-- The values of the arguments at the location, up to their closing parenthesis. -/
  | arguments
  /-- Binds the arguments at the location to parameters. -/
  | bindings (p : Name) (ps : List Name) (bound : Bindings)
  /-- The value of a function whose body is at the location. -/
  | body (name : Name)

/-- What a function of the evaluator results in. -/
abbrev Task.Result : Task → Type
  | arguments => List Value
  | bindings _ _ _ => Bindings
  | _ => Value

/-- The functions of the evaluator, which call each other. -/
def Task.run : (t : Task) → Unbounded Cause t.Result
  | .value level => do
    let v ← Task.operand |>.run
    Task.operators level v |>.run
  | .operators level v => do
    match (← get).program.peek?.bind BinaryOp.ofToken? with
    | some op =>
      if level ≤ op.level then
        skip 1
        let w ← Task.value (op.level + 1) |>.run
        let x ← Machine.ofExcept (op.apply v w)
        Task.operators level x |>.run
      else return v
    | none => return v
  | .operand => do
    match (← get).program.peek? with
    | none => throw .endOfInput
    | some t =>
      skip 1
      match UnaryOp.ofToken? t with
      | some op =>
        let v ← Task.operand |>.run
        Machine.ofExcept (op.apply v)
      | none =>
        match t with
        | .number x => return .num x
        | .string s => return .str s
        | .mark .lparen =>
          let v ← Task.value 0 |>.run
          takeClosing (.ofTokens (← get).program.rest)
          return v
        | .symbol name =>
          if (← get).program.peek? = some (.mark .lparen) then
            skip 1
            Task.call name |>.run
          else return (← get).lookup name
        | t => throw (.unexpected t.kind)
  | .call name => do
    match Builtin.find? name with
    | some b =>
      let vs ← Task.arguments |>.run
      applyBuiltin b vs
    | none =>
      match (← get).functions[name]? with
      | some f =>
        let params ← Task.bindings f.firstParam f.otherParams ∅ |>.run
        onProgram (Program.pushFunction params f.body)
        Task.body name |>.run
      | none =>
        let vs ← Task.arguments |>.run
        let index ← Machine.ofExcept (indices vs)
        let g ← arrayFor name index.length
        Machine.ofExcept (g.get index)
  | .arguments => do
    let v ← Task.value 0 |>.run
    if (← get).program.peek? = some (.mark .comma) then
      skip 1
      let vs ← Task.arguments |>.run
      return v :: vs
    else
      takeClosing (.ofTokens (← get).program.rest)
      return [v]
  | .bindings p ps bound => do
    let v ← Task.value 0 |>.run
    checkFits p v
    let program := (← get).program
    match ps with
    | [] =>
      if program.peek? = some (.mark .comma) then throw (.expected (.mark .rparen))
      takeClosing (.ofTokens program.rest)
      return bound.insert p v
    | q :: qs =>
      if program.peek? = some (.mark .comma) then
        skip 1
        Task.bindings q qs (bound.insert p v) |>.run
      else if program.atEnd then throw .endOfInput
      else throw (.expected (.mark .comma))
  | .body name =>
    show StateT Machine Option (Except Cause Value) from do
      let r ← (Task.value 0 |>.run : StateT Machine Option (Except Cause Value))
      ofEnding (leave name r)
partial_fixpoint

/-- The value of the expression at the location. -/
def expression : Unbounded Cause Value :=
  Task.run (.value 0)

/-- The number that the expression at the location is. -/
def numberExpression : Unbounded Cause Float := do
  let v ← expression
  Machine.ofExcept v.number

/-- The subscripts at the location, up to their closing parenthesis. -/
def subscripts : Unbounded Cause (List Int) := do
  let vs ← Task.arguments |>.run
  Machine.ofExcept (indices vs)

/-- Takes the target at the location. -/
def target : Unbounded Cause Target := do
  let name ← onProgram Program.nextName
  if ← onProgram (Program.accept (.mark .lparen)) then
    let index ← subscripts
    return .element name index
  else
    return .scalar name

/-! ### Loops over a line -/

/-- A loop, which in each round goes on with something or is done. -/
structure Loop (ε σ α : Type) where
  round : σ → Unbounded ε (σ ⊕ α)

/-- Goes round for as long as the loop goes on. -/
def Loop.run (l : Loop ε σ α) (s : σ) : Unbounded ε α := do
  match ← l.round s with
  | .inl s => l |>.run s
  | .inr a => return a
partial_fixpoint

/-- Skips a token if it is as `p` says. -/
def skipLoop (p : Token → Bool) : Loop Stop Unit Unit where
  round _ := do
    match (← get).program.peek? with
    | some t =>
      if p t then
        modifyProgram (·.skip 1)
        return .inl ()
      else return .inr ()
    | none => return .inr ()

/-- Skips tokens for as long as they are as `p` says. -/
def skipWhile (p : Token → Bool) : Unbounded Stop Unit :=
  (skipLoop p).run ()

/-- Executes an item, which says whether another one may follow behind a comma. -/
def itemLoop (item : Unbounded Stop Bool) : Loop Stop Unit Unit where
  round _ := do
    let again ← item
    if again then
      let comma ← accept (.mark .comma)
      return if comma then .inl () else .inr ()
    else return .inr ()

/-- Executes items for as long as they say so and a comma follows. -/
def items (item : Unbounded Stop Bool) : Unbounded Stop Unit :=
  (itemLoop item).run ()

/-- Adds an item of a `PRINT` to what was put together before. -/
def printLoop : Loop Stop Printout Printout where
  round out := do
    let p := (← get).program
    if p.atStatementEnd then return .inr out
    match p.peek? with
    | some (.mark .comma) =>
      modifyProgram (·.skip 1)
      let text := if out.afterSemicolon then out.text else out.text ++ [0x09]
      return .inl ⟨text, true, false⟩
    | some (.mark .semicolon) =>
      modifyProgram (·.skip 1)
      return .inl ⟨out.text, false, true⟩
    | _ =>
      let v ← expression
      return .inl ⟨out.text ++ v.text, true, false⟩

/-- Adds a further name of a parameter list to the names before it. -/
def nameLoop : Loop Stop (List Name) (List Name) where
  round names := do
    let comma ← accept (.mark .comma)
    if comma then
      let name ← nextName
      return .inl (names ++ [name])
    else return .inr names

/-! ### Statements -/

/-- `LET`, with or without the keyword. -/
def letStatement : Unbounded Stop Unit := do
  let t ← target
  expect (.mark .equal)
  let v ← expression
  assign t v

/-- One array of a `DIM`. -/
def dimItem : Unbounded Stop Bool := do
  let name ← nextName
  expect (.mark .lparen)
  let bounds ← subscripts
  let m ← get
  if m.arrays.contains name then fail .redimensionedArray
  let g ← Machine.ofExcept (Grid.make name.isString (bounds.map (· + 1)) m.maxElements)
  modify fun m => { m with arrays := m.arrays.insert name g }
  return true

/-- `DIM`. -/
def dimStatement : Unbounded Stop Unit := do
  let m ← get
  if m.program.atStatementEnd then
    modify (·.emit (.warning (utf8 "DIM WITHOUT SUBSCRIPTS IGNORED") m.program.location.line))
  else
    items dimItem

/-- `PRINT`. -/
def printStatement : Unbounded Stop Unit := do
  let out ← printLoop.run {}
  modify (·.emit (.print (if out.newline then out.text ++ [0x0a] else out.text)))

/-- `INPUT`. -/
def inputStatement : Unbounded Stop Unit := do
  let loc := (← get).program.location
  let prompt ← promptText
  let t ← target
  expectStatementEnd
  match (← get).reply with
  | none => suspend prompt
  | some reply =>
    modify fun m => { m with reply := none }
    takeReply t reply prompt ⟨loc.line, loc.index - 1⟩

/-- `GOTO`. -/
def gotoStatement : Unbounded Stop Unit := do
  let x ← numberExpression
  goToNumber x

/-- `GOSUB`. -/
def gosubStatement : Unbounded Stop Unit := do
  let x ← numberExpression
  let n ← Machine.ofExcept (Number.lineNumber x)
  Program.gosub n

/-- Drops a branch that is not taken. -/
def skipBranch : Unbounded Stop Bool := do
  skipWhile (!endsBranch ·)
  match (← get).program.peek? with
  | some (.keyword .ELSE) =>
    modifyProgram (·.skip 1)
    return true
  | _ =>
    modifyProgram Program.discardRest
    return false

/-- Whether an `IF` has a branch to execute, which is then at the location. -/
def chooseBranch : Unbounded Stop Bool := do
  let condition ← expression
  if !(← accept (.keyword .THEN)) then
    let p := (← get).program
    if p.peekKind? ≠ some (.keyword .GOTO) then
      if p.atEnd then fail .endOfInput
      fail (.expected (.keyword .THEN))
  if condition.truth then return true
  skipBranch

/-- What is done when the statement of a branch has ended. -/
def leaveBranch (r : Except Stop Unit) : Exec Unit :=
  aloneOnLine fun m =>
    match r with
    | .ok () => .ok () m
    | .error stop => .error stop m

/-- `FOR`. -/
def forStatement : Unbounded Stop Unit := do
  let name ← nextName
  if name.isString then fail .typeMismatch
  expect (.mark .equal)
  let start ← numberExpression
  expect (.keyword .TO)
  let limit ← numberExpression
  let step ← if ← accept (.keyword .STEP) then toExec numberExpression else pure 1
  expectStatementEnd
  setVariable name (.num start)
  Program.startLoop name limit step

/-- `NEXT`. -/
def nextStatement : Unbounded Stop Unit := do
  let p := (← get).program
  if p.atStatementEnd then
    match p.loopName? with
    | some name => nextLoop name
    | none => fail .nextWithoutFor
  else
    items nextItem

/-- `DEF`. -/
def defStatement : Unbounded Stop Unit := do
  if !(← get).program.location.line.isNumbered then fail .illegalDirect
  let name ← nextName
  expect (.mark .lparen)
  let first ← nextName
  let others ← nameLoop.run []
  expect (.mark .rparen)
  expect (.mark .equal)
  let p := (← get).program
  if p.atStatementEnd then fail .endOfInput
  modify fun m => { m with functions := m.functions.insert name ⟨first, others, p.location⟩ }
  skipWhile (!·.endsStatement)

/-- One target of a `READ`. -/
def readItem : Unbounded Stop Bool := do
  let t ← target
  let (field, line) ← Program.nextDatum
  let v ←
    match t.name.isString, field with
    | true, v => pure (Value.str v.text)
    | false, .num x => pure (.num x)
    | false, .str _ => fail (.dataTypeMismatch line)
  assign t v
  return true

/-- A statement, or the branch of an `IF`, which may be another statement. -/
inductive Part where
  | statement
  | branch

/-- Executes the statement or the branch at the location. -/
def Part.run : Part → Unbounded Stop Unit
  | .statement => do
    match (← get).program.peek? with
    | none => fail .endOfInput
    | some (.symbol _) => letStatement
    | some t =>
      modifyProgram (·.skip 1)
      match t with
      | .remark _ | .data _ | .mark .colon => return
      | .keyword .ELSE => modifyProgram Program.discardRest
      | .keyword .LET => letStatement
      | .keyword .DIM => dimStatement
      | .keyword .PRINT | .mark .question => printStatement
      | .keyword .INPUT => inputStatement
      | .keyword .IF =>
        let taken ← chooseBranch
        if taken then Part.branch |>.run
      | .keyword .GOTO => gotoStatement
      | .keyword .GOSUB => gosubStatement
      | .keyword .RETURN => Program.returnFromGosub
      | .keyword .END => throw (.signal .finish)
      | .keyword .STOP => throw (.signal .stop)
      | .keyword .FOR => forStatement
      | .keyword .NEXT => nextStatement
      | .keyword .RESTORE => modifyProgram Program.restore
      | .keyword .DEF => defStatement
      | .keyword .READ => items readItem
      | t => fail (.unexpected t.kind)
  | .branch => do
    match (← get).program.peek? with
    | some (.number x) =>
      modifyProgram (·.skip 1)
      goToNumber x
    | _ =>
      show StateT Machine Option (Except Stop Unit) from do
        let r ← (Part.statement |>.run : StateT Machine Option (Except Stop Unit))
        ofEnding (leaveBranch r)
partial_fixpoint

/-! ### Steps -/

/-- Executes the statement at the location and takes the colon after it. -/
def execute : Unbounded Stop Unit := do
  skipWhile (· == .mark .colon)
  if (← get).program.atEnd then return
  modifyProgram Program.clearJumped
  Part.run .statement
  endStatement

/-- Executes one statement of a running machine, and says what went wrong if it failed. -/
def step (m : Machine) : Option (Option Fault × Machine) :=
  if m.state ≠ .running then some (none, m)
  else do
    match ← m.program.toStatement with
    | none => return (none, m.enter .idle)
    | some p =>
      let (r, m') ← execute { m with program := p }.announce
      return endStep p.location.line
        (match r with
        | .ok a => .ok a m'
        | .error stop => .error stop m')

end Unbounded

end LineBasic
