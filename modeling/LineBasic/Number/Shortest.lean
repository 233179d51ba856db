import LineBasic.Number.Numeral

/-!
# The text of a number

A number is written with the fewest significant digits that read back as the same number, and of
those digit strings with the nearest; a tie goes to the even last digit. The digits are always
written positionally, however large or small the number, and never with an exponent.

For each count of digits the number has two neighbours on the decimal grid of that count, and if any
point of the grid reads back as the number then one of the two does. The search starts with the grid
of powers of ten, where the upper neighbour has one digit although it lies above every number with
digits from the number's first place on. Seventeen digits are always enough.

## Main definitions

* `Shortest.ofFinite` — the shortest decimal of a finite positive number
* `Number.write` — the text of a number
-/

namespace LineBasic

/-- A nonnegative decimal: `digits · 10 ^ exponent`. -/
structure Decimal where
  digits : Nat
  exponent : Int
deriving DecidableEq

namespace Shortest

/-- A positive binary fraction `num / den`, to be compared with powers of ten. -/
structure Fraction where
  num : Nat
  den : Nat

/-- The value `mantissa · 2 ^ exponent`. -/
def Fraction.ofBinary (mantissa : Nat) (exponent : Int) : Fraction :=
  if 0 ≤ exponent then ⟨mantissa * Nat.pow 2 exponent.toNat, 1⟩
  else ⟨mantissa, Nat.pow 2 (-exponent).toNat⟩

/-- The quotient by `10 ^ e`. -/
def Fraction.scale (x : Fraction) (e : Int) : Fraction :=
  if 0 ≤ e then ⟨x.num, x.den * Nat.pow 10 e.toNat⟩
  else ⟨x.num * Nat.pow 10 (-e).toNat, x.den⟩

/-- Whether a fraction lies below one. -/
def Fraction.isBelowOne (x : Fraction) : Bool :=
  x.num < x.den

/-- The place of the first digit: the least power of ten above the value. The binary exponent
leaves at most three places to try. -/
def place (x : Fraction) (log2 : Int) : Int :=
  let guess := (log2 * 30103).fdiv 100000
  if (x.scale guess).isBelowOne then guess
  else if (x.scale (guess + 1)).isBelowOne then guess + 1
  else guess + 2

/-- The neighbours of a value on the grid of multiples of `10 ^ e`, the nearer one first. -/
def neighbours (x : Fraction) (e : Int) : List Decimal :=
  let y := x.scale e
  let low := y.num / y.den
  let rest := y.num % y.den
  if rest = 0 then [⟨low, e⟩]
  else if 2 * rest < y.den || (2 * rest = y.den && low % 2 = 0) then [⟨low, e⟩, ⟨low + 1, e⟩]
  else [⟨low + 1, e⟩, ⟨low, e⟩]

/-- The decimal equal to `mantissa · 2 ^ exponent`. -/
def exact (mantissa : Nat) (exponent : Int) : Decimal :=
  if 0 ≤ exponent then ⟨mantissa * Nat.pow 2 exponent.toNat, 0⟩
  else ⟨mantissa * Nat.pow 5 (-exponent).toNat, exponent⟩

/-- Whether a decimal reads as the positive number `x`. -/
def readsAs (x : Float) (d : Decimal) : Bool :=
  Numeral.value? ⟨false, d.digits, d.exponent⟩ = some x

/-- The first decimal that reads as `x` among the neighbours with `n`, `n + 1`, … digits, `count`
digit counts in all. -/
def search (x : Float) (value : Fraction) (place : Int) : (n count : Nat) → Option Decimal
  | _, 0 => none
  | n, count + 1 =>
    match (neighbours value (place - n)).find? (readsAs x) with
    | some d => some d
    | none => search x value place (n + 1) count

/-- The shortest decimal of the number `x`, which is `mantissa · 2 ^ exponent`. -/
def ofFinite (x : Float) (mantissa : Nat) (exponent : Int) : Decimal :=
  let value := Fraction.ofBinary mantissa exponent
  let place := place value (mantissa.log2 + exponent)
  (search x value place 0 18).getD (exact mantissa exponent)

end Shortest

/-- A decimal in positional form: with a point exactly when digits follow it, and then with a digit
before it. -/
def Decimal.write (d : Decimal) : Bytes :=
  let digits := Bytes.decimal d.digits
  if 0 ≤ d.exponent then digits ++ List.replicate d.exponent.toNat 0x30
  else
    let places := (-d.exponent).toNat
    let padded := List.replicate (places + 1 - digits.length) 0x30 ++ digits
    padded.take (padded.length - places) ++ 0x2e :: padded.drop (padded.length - places)

namespace Number

/-- The text of a number. -/
def write (x : Float) : Bytes :=
  match x.toModel.unpack with
  | .notANumber => utf8 "NaN"
  | .infinity .positive => utf8 "inf"
  | .infinity .negative => utf8 "-inf"
  | .zero .positive => utf8 "0"
  | .zero .negative => utf8 "-0"
  | .finite .positive m e _ => (Shortest.ofFinite x m e).write
  | .finite .negative m e _ => 0x2d :: (Shortest.ofFinite (-x) m e).write

end Number

end LineBasic
