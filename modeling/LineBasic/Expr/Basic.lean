import LineBasic.Token.Basic

/-!
# Expressions

An expression is read from the tokens of a line before it is evaluated. Reading never fails: where
the tokens do not fit, the tree records what is wrong, and evaluation stops when it gets there. So a
fault in the text is reported only if everything to its left could be evaluated.

## Main definitions

* `UnaryOp`, `BinaryOp`, `Comparison` — the operators
* `BinaryOp.level` — how tightly an operator binds
* `Expr`, `Arguments` — expressions and argument lists
-/

namespace LineBasic

/-- The operators in front of an operand. -/
inductive UnaryOp where
  | plus | minus | not
deriving DecidableEq

/-- The comparisons. -/
inductive Comparison where
  | equal | less | greater | lessEqual | greaterEqual | notEqual
deriving DecidableEq

/-- The operators between two operands. -/
inductive BinaryOp where
  | or
  | and
  | compare (c : Comparison)
  | add
  | subtract
  | multiply
  | divide
  | power
deriving DecidableEq

/-- How tightly an operator binds. All operators associate to the left. -/
def BinaryOp.level : BinaryOp → Nat
  | .or => 0
  | .and => 1
  | .compare _ => 2
  | .add | .subtract => 3
  | .multiply | .divide => 4
  | .power => 5

/-- The operator that a token is between two operands. -/
def BinaryOp.ofToken? : Token → Option BinaryOp
  | .keyword .OR => some .or
  | .keyword .AND => some .and
  | .mark .equal => some (.compare .equal)
  | .mark .less => some (.compare .less)
  | .mark .greater => some (.compare .greater)
  | .mark .lessEqual => some (.compare .lessEqual)
  | .mark .greaterEqual => some (.compare .greaterEqual)
  | .mark .notEqual => some (.compare .notEqual)
  | .mark .plus => some .add
  | .mark .minus => some .subtract
  | .mark .star => some .multiply
  | .mark .slash => some .divide
  | .mark .caret => some .power
  | _ => none

/-- The operator that a token is in front of an operand. -/
def UnaryOp.ofToken? : Token → Option UnaryOp
  | .mark .plus => some .plus
  | .mark .minus => some .minus
  | .keyword .NOT => some .not
  | _ => none

/-- What stands where a closing parenthesis is due. -/
inductive Closing where
  /-- A closing parenthesis. -/
  | closed
  /-- The end of the line. -/
  | ended
  /-- Some other token. -/
  | blocked
deriving DecidableEq

/-- What the next token is where a closing parenthesis is due. -/
def Closing.ofTokens : List Token → Closing
  | [] => .ended
  | .mark .rparen :: _ => .closed
  | _ :: _ => .blocked

/-- The number of tokens that a closing takes. -/
def Closing.width : Closing → Nat
  | .closed => 1
  | .ended | .blocked => 0

mutual

/-- An expression, with what is wrong with it. -/
inductive Expr where
  /-- A number literal. -/
  | number (x : Float)
  /-- A string literal. -/
  | string (s : Bytes)
  /-- A scalar variable or a parameter. -/
  | scalar (name : Name)
  /-- A name followed by arguments in parentheses: a function or an array element. -/
  | call (name : Name) (args : Arguments)
  /-- An expression in parentheses. -/
  | paren (e : Expr) (close : Closing)
  /-- An operator and its operand. -/
  | unary (op : UnaryOp) (e : Expr)
  /-- An operator between its operands. -/
  | binary (op : BinaryOp) (left right : Expr)
  /-- The line ends where an operand is due. -/
  | missing
  /-- A token that is no operand stands where one is due. -/
  | misplaced (t : Token)

/-- The arguments after an opening parenthesis; there is at least one. -/
inductive Arguments where
  /-- The last argument, and what follows it. -/
  | last (e : Expr) (close : Closing)
  /-- An argument that a comma follows. -/
  | more (e : Expr) (rest : Arguments)

end

end LineBasic
