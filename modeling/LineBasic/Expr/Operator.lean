import LineBasic.Expr.Basic
import LineBasic.Fault
import LineBasic.Number.Exponential

/-!
# Operators

The logical and arithmetic operators take numbers; `+` also joins two strings, and comparisons take
two values of the same type. A comparison is decided by two strict tests: operands of which neither
is below the other count as equal.

## Main definitions

* `Value.number`, `Value.string` — the operand as the type an operator asks for
* `Value.compare` — the order of two values of one type
* `UnaryOp.apply`, `BinaryOp.apply` — the values of operators
-/

namespace LineBasic

namespace Value

/-- The number that a value is. -/
def number : Value → Except Cause Float
  | .num x => .ok x
  | .str _ => .error .typeMismatch

/-- The string that a value is. -/
def string : Value → Except Cause Bytes
  | .str s => .ok s
  | .num _ => .error .typeMismatch

/-- The order of two numbers; numbers that are not comparable count as equal. -/
def compareNumbers (x y : Float) : Ordering :=
  if x < y then .lt else if y < x then .gt else .eq

/-- The order of two strings, byte by byte. -/
def compareStrings (s t : Bytes) : Ordering :=
  if Bytes.lt s t then .lt else if Bytes.lt t s then .gt else .eq

/-- The order of two values of the same type. -/
def compare : Value → Value → Except Cause Ordering
  | .num x, .num y => .ok (compareNumbers x y)
  | .str s, .str t => .ok (compareStrings s t)
  | _, _ => .error .typeMismatch

end Value

/-- Whether a comparison holds of operands in a given order. -/
def Comparison.holds : Comparison → Ordering → Bool
  | .equal, o => o == .eq
  | .less, o => o == .lt
  | .greater, o => o == .gt
  | .lessEqual, o => o != .gt
  | .greaterEqual, o => o != .lt
  | .notEqual, o => o != .eq

/-- The value of an operator in front of an operand. -/
def UnaryOp.apply (op : UnaryOp) (v : Value) : Except Cause Value := do
  let x ← v.number
  match op with
  | .plus => .ok v
  | .minus => .ok (.num (-x))
  | .not => .ok (.ofBool (x == 0))

/-- The value of an operator on two numbers. -/
def BinaryOp.applyNumbers (op : BinaryOp) (x y : Float) : Except Cause Value :=
  match op with
  | .or => .ok (.ofBool (x != 0 || y != 0))
  | .and => .ok (.ofBool (x != 0 && y != 0))
  | .compare c => .ok (.ofBool (c.holds (Value.compareNumbers x y)))
  | .add => .ok (.num (x + y))
  | .subtract => .ok (.num (x - y))
  | .multiply => .ok (.num (x * y))
  | .divide => if y == 0 then .error .divisionByZero else .ok (.num (x / y))
  | .power => .ok (.num (Number.power x y))

/-- The value of an operator between two operands. -/
def BinaryOp.apply (op : BinaryOp) (v w : Value) : Except Cause Value :=
  match op, v, w with
  | _, .num x, .num y => op.applyNumbers x y
  | .add, .str s, .str t => .ok (.str (s ++ t))
  | .compare c, .str s, .str t => .ok (.ofBool (c.holds (Value.compareStrings s t)))
  | _, _, _ => .error .typeMismatch

end LineBasic
