import LineBasic.Number.Shortest

/-!
# Values and names

A value is a number or a string. Nothing is ever declared: the name of a variable, an array or a
function decides which of the two it holds, by whether it ends in `$`.

## Main definitions

* `Value` — numbers and strings
* `Name.isString` — whether a name holds strings
* `Value.fits` — whether a value may be stored under a name
-/

namespace LineBasic

/-- The value of an expression, a variable or a field of data. -/
inductive Value where
  /-- A number. -/
  | num (x : Float)
  /-- A string of bytes. -/
  | str (s : Bytes)
deriving DecidableEq

/-- The name of a variable, an array or a function, in upper case. -/
abbrev Name := Bytes

/-- A name that ends in `$` holds strings; every other name holds numbers. -/
def Name.isString (name : Name) : Bool :=
  name.getLast? == some Byte.dollar

namespace Value

/-- The number 1 for true and 0 for false. -/
def ofBool (b : Bool) : Value :=
  .num (if b then 1 else 0)

/-- Whether a value is a string. -/
def isString : Value → Bool
  | .num _ => false
  | .str _ => true

/-- Any number but zero is true, and any string but the empty one. -/
def truth : Value → Bool
  | .num x => x != 0
  | .str s => !s.isEmpty

/-- The text of a value, as it is printed. -/
def text : Value → Bytes
  | .num x => Number.write x
  | .str s => s

/-- Whether a value has the type that a name asks for. -/
def fits (name : Name) (v : Value) : Bool :=
  name.isString == v.isString

/-- What a name holds before anything is stored under it. -/
def initial (name : Name) : Value :=
  if name.isString then .str [] else .num 0

/-- Equality of values as the language tests it: numbers are compared as numbers, so the two
zeros are the same and a NaN differs from itself. -/
def same : Value → Value → Bool
  | .num x, .num y => x == y
  | .str s, .str t => s == t
  | _, _ => false

end Value

end LineBasic
