import LineBasic.Expr.Operator

/-!
# Expression trees and how they are written

An expression tree has no parentheses: its shape alone says what is computed. Written as tokens it
needs parentheses exactly where an operator stands below one that binds more tightly, or to the
right of one that binds as tightly, since all operators associate to the left. The order in which
operators bind is part of what a tree means, so it is stated here on its own and not taken from the
reader of expressions.

## Main definitions

* `Tree`, `Trees` — expressions made of literals, variables, operators and calls
* `UnaryOp.token`, `BinaryOp.token` — the token of an operator
* `BinaryOp.rank` — the place of an operator in the order of precedence
* `Tree.tokensAt` — a tree as tokens where operators of at least a level may stand bare
* `Tree.exprAt` — the expression that these tokens read as
* `Ends` — tokens that do not go on with the expression in front of them

## Main results

* `BinaryOp.level_eq_rank` — expressions are read in the order of precedence
* `Tree.tokensAt_ne_nil` — a tree is written with at least one token
-/

namespace LineBasic

/-- The token of an operator in front of an operand. -/
def UnaryOp.token : UnaryOp → Token
  | .plus => .mark .plus
  | .minus => .mark .minus
  | .not => .keyword .NOT

/-- The token of a comparison. -/
def Comparison.token : Comparison → Token
  | .equal => .mark .equal
  | .less => .mark .less
  | .greater => .mark .greater
  | .lessEqual => .mark .lessEqual
  | .greaterEqual => .mark .greaterEqual
  | .notEqual => .mark .notEqual

/-- The token of an operator between two operands. -/
def BinaryOp.token : BinaryOp → Token
  | .or => .keyword .OR
  | .and => .keyword .AND
  | .compare c => c.token
  | .add => .mark .plus
  | .subtract => .mark .minus
  | .multiply => .mark .star
  | .divide => .mark .slash
  | .power => .mark .caret

@[simp] theorem BinaryOp.ofToken?_token (op : BinaryOp) :
    BinaryOp.ofToken? op.token = some op := by
  cases op with
  | compare c => cases c <;> rfl
  | _ => rfl

/-- The place of an operator in the order of precedence: `OR`, `AND`, the comparisons, `+` and `-`,
`*` and `/`, and `^`, which binds most tightly. -/
def BinaryOp.rank : BinaryOp → Nat
  | .or => 0
  | .and => 1
  | .compare _ => 2
  | .add => 3
  | .subtract => 3
  | .multiply => 4
  | .divide => 4
  | .power => 5

/-- The level at which an operator is read is its place in the order of precedence. -/
theorem BinaryOp.level_eq_rank (op : BinaryOp) : op.level = op.rank := by
  cases op <;> rfl

/-- Every operator in front of an operand binds more tightly than one between two operands. -/
theorem BinaryOp.rank_lt (op : BinaryOp) : op.rank < 6 := by
  cases op <;> simp [BinaryOp.rank]

mutual

/-- An expression made of literals, scalar variables, operators and calls of user functions. -/
inductive Tree where
  /-- A number literal. -/
  | number (x : Float)
  /-- A string literal. -/
  | string (s : Bytes)
  /-- A scalar variable or a parameter. -/
  | scalar (name : Name)
  /-- An operator and its operand. -/
  | unary (op : UnaryOp) (e : Tree)
  /-- An operator between its operands. -/
  | binary (op : BinaryOp) (left right : Tree)
  /-- A call of a user function. -/
  | call (name : Name) (args : Trees)

/-- The arguments of a call; there is at least one. -/
inductive Trees where
  /-- The last argument. -/
  | last (e : Tree)
  /-- An argument that others follow. -/
  | more (e : Tree) (rest : Trees)

end

/-- The number of arguments. -/
def Trees.count : Trees → Nat
  | .last _ => 1
  | .more _ rest => rest.count + 1

/-- Tokens in parentheses. -/
def parenthesized (tokens : List Token) : List Token :=
  .mark .lparen :: (tokens ++ [.mark .rparen])

mutual

/-- A tree as tokens where operators of at least the given rank may stand without parentheses. An
operand of a unary operator is written at 6, where none may. -/
def Tree.tokensAt (level : Nat) : Tree → List Token
  | .number x => [.number x]
  | .string s => [.string s]
  | .scalar name => [.symbol name]
  | .unary op e => op.token :: e.tokensAt 6
  | .binary op left right =>
    let bare := left.tokensAt op.rank ++ op.token :: right.tokensAt (op.rank + 1)
    if level ≤ op.rank then bare else parenthesized bare
  | .call name args => .symbol name :: .mark .lparen :: args.tokens

/-- The arguments of a call with the commas between them and the closing parenthesis. -/
def Trees.tokens : Trees → List Token
  | .last e => e.tokensAt 0 ++ [.mark .rparen]
  | .more e rest => e.tokensAt 0 ++ .mark .comma :: rest.tokens

end

/-- A tree as tokens, with no more parentheses than needed. -/
def Tree.tokens (t : Tree) : List Token :=
  t.tokensAt 0

mutual

/-- The expression that the tokens of a tree read as: the tree with the parentheses it is written
with. -/
def Tree.exprAt (level : Nat) : Tree → Expr
  | .number x => .number x
  | .string s => .string s
  | .scalar name => .scalar name
  | .unary op e => .unary op (e.exprAt 6)
  | .binary op left right =>
    let bare := .binary op (left.exprAt op.rank) (right.exprAt (op.rank + 1))
    if level ≤ op.rank then bare else .paren bare .closed
  | .call name args => .call name args.exprs

/-- The argument list that the tokens of arguments read as. -/
def Trees.exprs : Trees → Arguments
  | .last e => .last (e.exprAt 0) .closed
  | .more e rest => .more (e.exprAt 0) rest.exprs

end

/-- Whether `tail` does not go on with the expression written in front of it: it starts neither with
an operator nor with a parenthesis right after a name. -/
def Ends (written tail : List Token) : Prop :=
  ∀ t ∈ tail.head?, BinaryOp.ofToken? t = none ∧
    (t = .mark .lparen → ∀ name, written.getLast? ≠ some (.symbol name))

/-- What ends a statement does not go on with an expression. -/
theorem ends_of_endsStatement {written tail : List Token}
    (h : ∀ t ∈ tail.head?, t.endsStatement = true) : Ends written tail := by
  intro t ht
  have hend := h t ht
  unfold Token.endsStatement at hend
  split at hend
  · exact ⟨rfl, nofun⟩
  · exact ⟨rfl, nofun⟩
  · cases hend

/-- A tree is written with at least one token. -/
theorem Tree.tokensAt_ne_nil (level : Nat) (t : Tree) : t.tokensAt level ≠ [] := by
  cases t with
  | binary op left right =>
    simp only [Tree.tokensAt]
    split
    · simp
    · simp [parenthesized]
  | _ => simp [Tree.tokensAt]

end LineBasic
