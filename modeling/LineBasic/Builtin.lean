import LineBasic.Expr.Operator
import LineBasic.Number.Circular
import LineBasic.Number.Integral

/-!
# Built-in functions

Nineteen functions are always there, and no array or user function of the same name can be reached.
Arguments come evaluated. A wrong number of them is an error of syntax, found before their types are
looked at.

## Main definitions

* `Builtin` — the built-in functions
* `Builtin.find?` — the function of a name
* `Builtin.value` — the value of a function that depends on its arguments alone
* `Number.subscript`, `Number.lineNumber`, `Number.count` — numbers as indices, lines and lengths
-/

namespace LineBasic

namespace Number

/-- The largest subscript that is looked up at all. -/
def maxSubscript : Int := 2147483647

/-- The index that a number denotes: its floor, which must not be negative. -/
def subscript (x : Float) : Except Cause Nat :=
  match floor? x with
  | some i =>
    if i < 0 then .error .illegalQuantity
    else if maxSubscript < i then .error .badSubscript
    else .ok i.toNat
  | none => if 0 < x then .error .badSubscript else .error .illegalQuantity

/-- The largest line that a number can denote. -/
def maxLine : Nat := 0x8000000000000000

/-- The line that a number denotes: it must be a natural number, and not too large. -/
def lineNumber (x : Float) : Except Cause Nat :=
  match natural? x with
  | some n => if n ≤ maxLine then .ok n else .error .illegalQuantity
  | none => .error .illegalQuantity

/-- The number of bytes of a text of the given length that a number asks for: its floor, and at most
all of them. -/
def count (x : Float) (length : Nat) : Except Cause Nat :=
  match floor? x with
  | some i => if i < 0 then .error .illegalQuantity else .ok (min i.toNat length)
  | none => if 0 < x then .ok length else .error .illegalQuantity

/-- The sign of a number: 1, -1 or 0. -/
def sign (x : Float) : Float :=
  if 0 < x then 1 else if x < 0 then -1 else 0

/-- The value of the longest beginning of `s`, of at most `n` bytes, that is a numeral in range. -/
def longest (s : Bytes) : (n : Nat) → Option Float
  | 0 => none
  | n + 1 =>
    match read? (s.take (n + 1)) with
    | some x => some x
    | none => longest s n

/-- Whether a byte may stand in a numeral. -/
def isNumeralByte (c : UInt8) : Bool :=
  Byte.isDigit c || c == 0x2e || c == 0x2b || c == 0x2d || c == 0x65 || c == 0x45

/-- The number that a text starts with after blanks; 0 if there is none. -/
def leading (s : Bytes) : Float :=
  let s := (s.dropWhile Byte.isBlank).takeWhile isNumeralByte
  (longest s s.length).getD 0

end Number

/-- The built-in functions. -/
inductive Builtin where
  | abs | asc | atn | chr | cos | exp | int | left | len | log | mid | right | rnd | sgn | sin | sqr
  | str | tan | val
deriving DecidableEq

namespace Builtin

/-- The name of a function. -/
def name : Builtin → Name
  | .abs => utf8 "ABS"
  | .asc => utf8 "ASC"
  | .atn => utf8 "ATN"
  | .chr => utf8 "CHR$"
  | .cos => utf8 "COS"
  | .exp => utf8 "EXP"
  | .int => utf8 "INT"
  | .left => utf8 "LEFT$"
  | .len => utf8 "LEN"
  | .log => utf8 "LOG"
  | .mid => utf8 "MID$"
  | .right => utf8 "RIGHT$"
  | .rnd => utf8 "RND"
  | .sgn => utf8 "SGN"
  | .sin => utf8 "SIN"
  | .sqr => utf8 "SQR"
  | .str => utf8 "STR$"
  | .tan => utf8 "TAN"
  | .val => utf8 "VAL"

/-- The functions by ascending name. -/
def all : List Builtin :=
  [.abs, .asc, .atn, .chr, .cos, .exp, .int, .left, .len, .log, .mid, .right, .rnd, .sgn, .sin,
   .sqr, .str, .tan, .val]

/-- The functions with their names. -/
def table : List (Name × Builtin) :=
  all.map fun b => (b.name, b)

/-- The function of a name. -/
def find? (name : Name) : Option Builtin :=
  table.lookup name

/-- The bytes of a string from `low` up to `high`. -/
def slice (s : Bytes) (low : Int) (high : Nat) : Except Cause Bytes :=
  if 0 ≤ low ∧ low ≤ high ∧ high ≤ s.length then .ok ((s.take high).drop low.toNat)
  else .error (.internal (.sliceOutOfRange low high s.length))

/-- The first bytes of a string. -/
def leftOf (s : Bytes) (n : Float) : Except Cause Bytes := do
  let k ← Number.count n s.length
  slice s 0 k

/-- The last bytes of a string. -/
def rightOf (s : Bytes) (n : Float) : Except Cause Bytes := do
  let k ← Number.count n s.length
  slice s (s.length - k) s.length

/-- The bytes of a string from a place on, which counts from 1; `none` beyond the end. The place is
compared with the length by its whole part as a signed number of 64 bits. From `2 ^ 63` on, what
that is depends on the machine; here such a place lies beyond the end of every string. -/
def fromPlace (s : Bytes) (place : Float) : Except Cause (Option Bytes) := do
  let start ← Number.count place s.length
  if place < 1 then .error .illegalQuantity
  else
    match Number.floor? place with
    | some i =>
      if (s.length : Int) < i then .ok none else (slice s (start - 1) s.length).map some
    | none => .ok none

/-- The bytes of a string from a place on, and of them at most as many as `n` says. The number is
not looked at when the place is beyond the end. -/
def midOf (s : Bytes) (place : Value) (n : Option Value) : Except Cause Bytes := do
  let tail ← fromPlace s (← place.number)
  match tail, n with
  | none, _ => .ok []
  | some t, none => .ok t
  | some t, some n => leftOf t (← n.number)

/-- A function from numbers to numbers. -/
def onNumber (f : Float → Float) (v : Value) : Except Cause Value :=
  v.number.map fun x => .num (f x)

/-- The character of a code, as one byte. -/
def charOf (x : Float) : Except Cause Bytes :=
  match Number.floor? x with
  | some i => if 0 ≤ i && i ≤ 255 then .ok [i.toNat.toUInt8] else .error .illegalQuantity
  | none => .error .illegalQuantity

/-- The value of a function that depends on its arguments alone; `RND` is not one of them. -/
def value (b : Builtin) (args : List Value) : Except Cause Value :=
  match b, args with
  | .abs, [v] => onNumber Float.abs v
  | .atn, [v] => onNumber Number.atan v
  | .cos, [v] => onNumber Number.cos v
  | .sin, [v] => onNumber Number.sin v
  | .tan, [v] => onNumber Number.tan v
  | .exp, [v] => onNumber Number.exp v
  | .int, [v] => onNumber Number.floor v
  | .sgn, [v] => onNumber Number.sign v
  | .log, [v] => do
    let x ← v.number
    if x ≤ 0 then .error .illegalQuantity else .ok (.num (Number.log x))
  | .sqr, [v] => do
    let x ← v.number
    if x < 0 then .error .illegalQuantity else .ok (.num (Float.sqrt x))
  | .len, [v] => v.string.map fun s => .num (Number.ofNat s.length)
  | .asc, [v] => do
    match ← v.string with
    | [] => .error .illegalQuantity
    | c :: _ => .ok (.num (Number.ofNat c.toNat))
  | .chr, [v] => do return .str (← charOf (← v.number))
  | .str, [v] => v.number.map fun x => .str (Number.write x)
  | .val, [v] => v.string.map fun s => .num (Number.leading s)
  | .left, [v, n] => do return .str (← leftOf (← v.string) (← n.number))
  | .right, [v, n] => do return .str (← rightOf (← v.string) (← n.number))
  | .mid, [v, place] => do return .str (← midOf (← v.string) place none)
  | .mid, [v, place, n] => do return .str (← midOf (← v.string) place (some n))
  | _, _ => .error (.unexpected none)

/-- Whether `RND` of a number draws anew: a positive argument does, zero repeats the last number,
and a negative one is not supported. -/
def draws (v : Value) : Except Cause Bool := do
  let x ← v.number
  if x < 0 then .error .unimplemented else .ok (0 < x)

end Builtin

end LineBasic
