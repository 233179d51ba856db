import LineBasic.Machine.Eval
import LineBasic.Proofs.Expr.Reading

/-!
# The meaning of expression trees

A tree has a value, or a first error, given the values of variables, the user functions and the
number of calls that may still nest. Operands are evaluated from left to right and then checked.
Arguments are evaluated from left to right, each checked against its parameter before the next one
is looked at; the body of a function sees one flat environment in which the parameters override all
that the caller sees.

Nothing here knows of tokens or locations. That evaluating the tokens of a tree on a machine gives
its value is shown in `LineBasic.Proofs.Expr.Refinement`.

## Main definitions

* `Definition` — a user function as parameters and a tree
* `Environment` — the values of names
* `Tree.value`, `Trees.bind` — the value of a tree, the environment that arguments make
* `Tree.wellCalled` — every call is of a defined function, with as many arguments as it declares
-/

namespace LineBasic

/-- A user function: its parameters, and the tree that it stands for. -/
structure Definition where
  params : List Name
  body : Tree

/-- The user functions. -/
abbrev Definitions := Name → Option Definition

/-- The values of names. -/
abbrev Environment := Name → Value

/-- An environment in which one name has another value. -/
def Environment.with (env : Environment) (p : Name) (v : Value) : Environment :=
  fun name => if name = p then v else env name

/-- A value, if it has the type that a name asks for. -/
def Value.checkedFor (name : Name) (v : Value) : Except Cause Value :=
  if v.fits name then .ok v else .error .typeMismatch

mutual

/-- The value of a tree, or its first error. At most `calls` calls may nest. -/
def Tree.value (defs : Definitions) (calls : Nat) (env : Environment) : Tree → Except Cause Value
  | .number x => .ok (.num x)
  | .string s => .ok (.str s)
  | .scalar name => .ok (env name)
  | .unary op e => do
    let v ← e.value defs calls env
    op.apply v
  | .binary op left right => do
    let v ← left.value defs calls env
    let w ← right.value defs calls env
    op.apply v w
  | .call name args =>
    match defs name with
    | none => .error .undefinedStatement
    | some d => do
      let inner ← args.bind defs calls env d.params env
      match calls with
      | 0 => .error .stackOverflow
      | calls + 1 =>
        let v ← d.body.value defs calls inner
        v.checkedFor name
termination_by t => (calls, sizeOf t)

/-- Adds the values of arguments to an environment, under the names of their parameters. A later
parameter of the same name wins. -/
def Trees.bind (defs : Definitions) (calls : Nat) (env : Environment) (params : List Name)
    (inner : Environment) : Trees → Except Cause Environment
  | .last e =>
    match params with
    | [] => .ok inner
    | p :: _ => do
      let v ← e.value defs calls env
      let v ← v.checkedFor p
      .ok (inner.with p v)
  | .more e rest =>
    match params with
    | [] => .ok inner
    | p :: ps => do
      let v ← e.value defs calls env
      let v ← v.checkedFor p
      rest.bind defs calls env ps (inner.with p v)
termination_by ts => (calls, sizeOf ts)

end

mutual

/-- Whether every call in a tree is of a defined function and has as many arguments as that function
has parameters. -/
def Tree.wellCalled (defs : Definitions) : Tree → Bool
  | .number _ | .string _ | .scalar _ => true
  | .unary _ e => e.wellCalled defs
  | .binary _ left right => left.wellCalled defs && right.wellCalled defs
  | .call name args =>
    (defs name).any (·.params.length == args.count) && args.wellCalled defs

/-- Whether every call in a list of arguments is. -/
def Trees.wellCalled (defs : Definitions) : Trees → Bool
  | .last e => e.wellCalled defs
  | .more e rest => e.wellCalled defs && rest.wellCalled defs

end

end LineBasic
