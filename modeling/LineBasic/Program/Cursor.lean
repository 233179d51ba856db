import LineBasic.Program.Basic

/-!
# Walking along a line

Statements and expressions are read token by token from the current location. Reading moves the
location; nothing here leaves the line.

## Main definitions

* `Program.Action` — what may fail and keeps what was done before
* `Program.peek?`, `Program.rest` — the tokens at the location
* `Program.accept`, `Program.expect`, `Program.next` — taking tokens
* `Program.rewindBefore?`, `Program.rewindBefore` — going back to a token
-/

namespace LineBasic.Program

/-- A step on a program that may fail. What was done before a failure stays done. -/
abbrev Action := EStateM Cause Program

/-- The token at the location. -/
def peek? (p : Program) : Option Token :=
  p.current[p.location.index]?

/-- The tokens from the location on. -/
def rest (p : Program) : List Token :=
  p.current.drop p.location.index

/-- The kind of the token at the location. -/
def peekKind? (p : Program) : Option Token.Kind :=
  p.peek?.map Token.kind

/-- Whether the line is used up. -/
def atEnd (p : Program) : Bool :=
  p.current.length ≤ p.location.index

/-- Whether the statement is used up: at the end of the line, a colon or an `ELSE`. -/
def atStatementEnd (p : Program) : Bool :=
  match p.peek? with
  | some t => t.endsStatement
  | none => true

/-- Moves past `n` tokens. -/
def skip (p : Program) (n : Nat) : Program :=
  { p with location.index := p.location.index + n }

/-- Moves to the end of the line. -/
def discardRest (p : Program) : Program :=
  { p with location.index := p.current.length }

/-- Moves past the rest of the statement. -/
def skipStatement (p : Program) : Program :=
  p.skip (p.rest.takeWhile (!·.endsStatement)).length

/-- Takes the next token; fails at the end of the line. -/
def next : Action Token := fun p =>
  match p.peek? with
  | some t => .ok t (p.skip 1)
  | none => .error .endOfInput p

/-- Takes the next token if it is of kind `k`. -/
def accept (k : Token.Kind) : Action Bool := fun p =>
  if p.peekKind? = some k then .ok true (p.skip 1) else .ok false p

/-- Takes the next token, which must be of kind `k`. -/
def expect (k : Token.Kind) : Action Unit := fun p =>
  match p.peekKind? with
  | none => .error .endOfInput p
  | some k' => if k' = k then .ok () (p.skip 1) else .error (.expected k) p

/-- Takes a name. -/
def nextName : Action Name := fun p =>
  match p.peek? with
  | some (.symbol name) => .ok name (p.skip 1)
  | some t => .error (.unexpected t.kind) (p.skip 1)
  | none => .error .endOfInput p

/-- The last place before `index` that holds a token of kind `k`. -/
def lastBefore? (tokens : List Token) (k : Token.Kind) : (index : Nat) → Option Nat
  | 0 => none
  | i + 1 => if tokens[i]?.map Token.kind = some k then some i else lastBefore? tokens k i

/-- Moves back to the nearest earlier token of kind `k` on the line. -/
def rewindBefore? (p : Program) (k : Token.Kind) : Option Program :=
  (lastBefore? p.current k p.location.index).map fun i => { p with location.index := i }

/-- Moves back to the nearest earlier token of kind `k`, and says whether there is one. The search
starts at the token in front of the location, which must be on the line. -/
def rewindBefore (k : Token.Kind) : Action Bool := fun p =>
  if p.current.length < p.location.index then
    .error (.internal (.indexOutOfRange (p.location.index - 1) p.current.length)) p
  else
    match p.rewindBefore? k with
    | some p' => .ok true p'
    | none => .ok false p

end LineBasic.Program
