import LineBasic.Machine.Target

/-!
# Statements

A statement starts at the location and leaves it at what follows the statement, or wherever control
was transferred to. A statement ends in one of three ways: normally, with a fault, or with a signal
that ends, breaks or suspends the run.

`INPUT` has no continuation of its own. Without a reply it goes back to its keyword and suspends the
run; with a reply it is executed again from there.

## Main definitions

* `Stop` — why a statement did not end normally
* `Machine.Exec` — execution of statements
* `Machine.statement` — executes one statement
-/

namespace LineBasic

/-- Why a statement did not end normally. -/
inductive Stop where
  /-- Something went wrong. -/
  | fault (cause : Cause)
  /-- The run ends, breaks or waits. -/
  | signal (s : Signal)
deriving DecidableEq

namespace Machine

/-- Execution on a machine. What was done before a stop stays done. -/
abbrev Exec := EStateM Stop Machine

/-- Evaluation as part of execution. -/
def ofEval {α : Type} (x : Eval α) : Exec α := fun m =>
  match x m with
  | .ok a m => .ok a m
  | .error cause m => .error (.fault cause) m

instance : MonadLift Eval Exec := ⟨ofEval⟩

/-- Stops with a fault. -/
def fail {α : Type} (cause : Cause) : Exec α :=
  throw (.fault cause)

/-- Changes the program. -/
def modifyProgram (f : Program → Program) : Exec Unit :=
  modify fun m => { m with program := f m.program }

/-- Takes the next token if it is of kind `k`. -/
def accept (k : Token.Kind) : Exec Bool :=
  ofEval (onProgram (Program.accept k))

/-- Takes the next token, which must be of kind `k`. -/
def expect (k : Token.Kind) : Exec Unit :=
  ofEval (onProgram (Program.expect k))

/-- Takes a name. -/
def nextName : Exec Name :=
  ofEval (onProgram Program.nextName)

/-- Fails unless the statement is used up. -/
def expectStatementEnd : Exec Unit := do
  let p := (← get).program
  if !p.atStatementEnd then fail (.unexpected p.peekKind?)

/-- Executes an item, and as long as it says so and a comma follows, the next one. A list has fewer
items than the line has tokens, so `more` of them are enough. -/
def eachItem (item : Exec Bool) : (more : Nat) → Exec Unit
  | 0 => discard item
  | more + 1 => do
    if ← item then
      if ← accept (.mark .comma) then
        eachItem item more

/-- Executes the items of a list. -/
def items (item : Exec Bool) : Exec Unit := do
  eachItem item (← get).program.rest.length

/-- `LET`, with or without the keyword. -/
def letStatement : Exec Unit := do
  let t ← target
  expect (.mark .equal)
  let v ← expression
  assign t v

/-- One array of a `DIM`. Each bound is the highest index along its axis. -/
def dimItem : Exec Bool := do
  let name ← nextName
  expect (.mark .lparen)
  let bounds ← subscripts
  let m ← get
  if m.arrays.contains name then fail .redimensionedArray
  let g ← ofExcept (Grid.make name.isString (bounds.map (· + 1)) m.maxElements)
  modify fun m => { m with arrays := m.arrays.insert name g }
  return true

/-- `DIM`. -/
def dimStatement : Exec Unit := do
  let m ← get
  if m.program.atStatementEnd then
    modify (·.emit (.warning (utf8 "DIM WITHOUT SUBSCRIPTS IGNORED") m.program.location.line))
  else
    items dimItem

/-- What a `PRINT` has put together: the text, whether a line break is due at the end, and whether a
semicolon was last. -/
structure Printout where
  text : Bytes := []
  newline : Bool := true
  afterSemicolon : Bool := false

/-- Puts together the rest of a `PRINT`, in at most so many items. A comma is a tab, unless it comes
right after a semicolon. -/
def printItems : (items : Nat) → Printout → Exec Printout
  | 0, out => return out
  | items + 1, out => do
    let p := (← get).program
    if p.atStatementEnd then return out
    match p.peek? with
    | some (.mark .comma) =>
      modifyProgram (·.skip 1)
      let text := if out.afterSemicolon then out.text else out.text ++ [0x09]
      printItems items ⟨text, true, false⟩
    | some (.mark .semicolon) =>
      modifyProgram (·.skip 1)
      printItems items ⟨out.text, false, true⟩
    | _ =>
      let v ← expression
      printItems items ⟨out.text ++ v.text, true, false⟩

/-- `PRINT`. The text is shown only if all of it could be evaluated. -/
def printStatement : Exec Unit := do
  let out ← printItems (← get).program.rest.length {}
  modify (·.emit (.print (if out.newline then out.text ++ [0x0a] else out.text)))

/-- Goes back to the `INPUT` keyword and waits for a reply. -/
def suspend (prompt : Bytes) : Exec Unit := do
  if !(← Program.rewindBefore (.keyword .INPUT)) then fail (.internal .inputTokenNotFound)
  modify fun m => { m with prompt }
  throw (.signal .awaitInput)

/-- What an `INPUT` asks when it has no text of its own. -/
def usualPrompt : Bytes := utf8 "?"

/-- The text that an `INPUT` asks with. -/
def promptText : Exec Bytes := do
  match (← get).program.peek? with
  | some (.string s) =>
    modifyProgram (·.skip 1)
    if ← accept (.mark .semicolon) then return s
    else if ← accept (.mark .comma) then return s
    else fail (.expected (.mark .semicolon))
  | _ => return usualPrompt

/-- The first of the values of a reply. -/
def firstValue : List Value → Exec Value
  | v :: _ => return v
  | [] => fail (.internal (.indexOutOfRange 0 0))

/-- Stores the value that the `INPUT` at `keyword` was given; `extra` says that there were more.
When the statement was suspended inside the branch of an `IF`, the rest of its line is dropped. -/
def storeReply (t : Target) (v : Value) (extra : Bool) (keyword : Location) : Exec Unit := do
  assign t v
  if extra then modify (·.emit (.extraIgnored keyword.line))
  modify fun m => { m with prompt := [] }
  if (← get).branchInput = some keyword then
    modify fun m => { m with branchInput := none, program := m.program.discardRest }

/-- Takes the first value of a reply. A reply that is no number is asked for again if the target is
numeric. -/
def takeReply (t : Target) (reply prompt : Bytes) (keyword : Location) : Exec Unit := do
  let (values, used) := Field.readAll reply
  let extra := 1 < values.length || used < reply.length
  match t.name.isString, ← firstValue values with
  | true, v => storeReply t (.str v.text) extra keyword
  | false, .num x => storeReply t (.num x) extra keyword
  | false, .str _ =>
    modify (·.emit (.reenter keyword.line))
    suspend prompt

/-- `INPUT`. -/
def inputStatement : Exec Unit := do
  let loc := (← get).program.location
  let prompt ← promptText
  let t ← target
  expectStatementEnd
  match (← get).reply with
  | none => suspend prompt
  | some reply =>
    modify fun m => { m with reply := none }
    takeReply t reply prompt ⟨loc.line, loc.index - 1⟩

/-- Moves to the line that a number denotes. -/
def goToNumber (x : Float) : Exec Unit := do
  let n ← ofExcept (Number.lineNumber x)
  Program.goTo n

/-- `GOTO`. -/
def gotoStatement : Exec Unit := do
  goToNumber (← numberExpression)

/-- `GOSUB`. -/
def gosubStatement : Exec Unit := do
  let n ← ofExcept (Number.lineNumber (← numberExpression))
  Program.gosub n

/-- Executes the statement of a branch. Unless control was transferred, the rest of the line is
dropped after it; if the statement waits, the place is remembered. -/
def aloneOnLine (statement : Exec Unit) : Exec Unit := fun m =>
  match statement m with
  | .ok () m =>
    .ok () (if m.program.jumped then m else { m with program := m.program.discardRest })
  | .error (.signal .awaitInput) m =>
    .error (.signal .awaitInput) { m with branchInput := some m.program.location }
  | .error stop m => .error stop m

/-- One branch of an `IF`: a line number, or one statement. -/
def branch (statement : Exec Unit) : Exec Unit := do
  match (← get).program.peek? with
  | some (.number x) =>
    modifyProgram (·.skip 1)
    goToNumber x
  | _ => aloneOnLine statement

/-- Whether a token ends the search for the `ELSE` of an `IF`. -/
def endsBranch : Token → Bool
  | .mark .colon | .keyword .ELSE => true
  | _ => false

/-- Drops a branch that is not taken: up to its `ELSE`, in which case the answer is true, or to the
end of the line if there is none before the next colon. -/
def skipBranch : Exec Bool := do
  let p := (← get).program
  let skipped := p.skip (p.rest.takeWhile (!endsBranch ·)).length
  match skipped.peek? with
  | some (.keyword .ELSE) =>
    modifyProgram fun _ => skipped.skip 1
    return true
  | _ =>
    modifyProgram fun _ => skipped.discardRest
    return false

/-- `IF`, with a way to execute the statement of a branch. -/
def ifStatement (statement : Exec Unit) : Exec Unit := do
  let condition ← expression
  if !(← accept (.keyword .THEN)) then
    let p := (← get).program
    if p.peekKind? ≠ some (.keyword .GOTO) then
      if p.atEnd then fail .endOfInput
      fail (.expected (.keyword .THEN))
  if condition.truth then branch statement
  else if ← skipBranch then branch statement

/-- `FOR`. The body is executed at least once. -/
def forStatement : Exec Unit := do
  let name ← nextName
  if name.isString then fail .typeMismatch
  expect (.mark .equal)
  let start ← numberExpression
  expect (.keyword .TO)
  let limit ← numberExpression
  let step ← if ← accept (.keyword .STEP) then ofEval numberExpression else pure 1
  expectStatementEnd
  setVariable name (.num start)
  Program.startLoop name limit step

/-- Ends a round of the loop over a variable. The variable takes its next value whether or not the
loop goes round again. -/
def nextLoop (name : Name) : Exec Unit := do
  let value ← ofExcept ((← get).lookup name).number
  let x ← Program.endLoop name value
  setVariable name (.num x)

/-- One variable of a `NEXT`; the rest of the list counts only if the loop has ended. -/
def nextItem : Exec Bool := do
  nextLoop (← nextName)
  return !(← get).program.jumped

/-- `NEXT`. Without a variable it is the innermost loop's. -/
def nextStatement : Exec Unit := do
  let p := (← get).program
  if p.atStatementEnd then
    match p.loopName? with
    | some name => nextLoop name
    | none => fail .nextWithoutFor
  else
    items nextItem

/-- The further names of a parameter list, at most so many. -/
def moreNames : (names : Nat) → Exec (List Name)
  | 0 => return []
  | names + 1 => do
    if ← accept (.mark .comma) then
      let name ← nextName
      return name :: (← moreNames names)
    else return []

/-- `DEF`. Only the place of the body is kept; it is read again at every call. -/
def defStatement : Exec Unit := do
  if !(← get).program.location.line.isNumbered then fail .illegalDirect
  let name ← nextName
  expect (.mark .lparen)
  let first ← nextName
  let others ← moreNames (← get).program.rest.length
  expect (.mark .rparen)
  expect (.mark .equal)
  let p := (← get).program
  if p.atStatementEnd then fail .endOfInput
  modify fun m => { m with functions := m.functions.insert name ⟨first, others, p.location⟩ }
  modifyProgram Program.skipStatement

/-- One target of a `READ`. -/
def readItem : Exec Bool := do
  let t ← target
  let (field, line) ← Program.nextDatum
  let v ←
    match t.name.isString, field with
    | true, v => pure (Value.str v.text)
    | false, .num x => pure (.num x)
    | false, .str _ => fail (.dataTypeMismatch line)
  assign t v
  return true

/-- Executes the statement at the location. An `IF` executes another one further right, so at most
as many are executed as there are tokens left. -/
def statement : (tokens : Nat) → Exec Unit
  | 0 => fail .endOfInput
  | tokens + 1 => do
    match (← get).program.peek? with
    | none => fail .endOfInput
    | some (.symbol _) => letStatement
    | some t =>
      modifyProgram (·.skip 1)
      match t with
      | .remark _ | .data _ | .mark .colon => return
      | .keyword .ELSE => modifyProgram Program.discardRest
      | .keyword .LET => letStatement
      | .keyword .DIM => dimStatement
      | .keyword .PRINT | .mark .question => printStatement
      | .keyword .INPUT => inputStatement
      | .keyword .IF => ifStatement (statement tokens)
      | .keyword .GOTO => gotoStatement
      | .keyword .GOSUB => gosubStatement
      | .keyword .RETURN => Program.returnFromGosub
      | .keyword .END => throw (.signal .finish)
      | .keyword .STOP => throw (.signal .stop)
      | .keyword .FOR => forStatement
      | .keyword .NEXT => nextStatement
      | .keyword .RESTORE => modifyProgram Program.restore
      | .keyword .DEF => defStatement
      | .keyword .READ => items readItem
      | t => fail (.unexpected t.kind)

end Machine

end LineBasic
