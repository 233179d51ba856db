import LineBasic.Text.Bytes

/-!
# Decimal numerals

A numeral is an optional sign, digits with at most one point among them and at least one digit, and
an optional exponent. Its value is the nearest number; a value beyond the largest finite number is
refused, and one below the smallest positive number is zero with the numeral's sign.

## Main definitions

* `Numeral` — a numeral as sign, integer and power of ten
* `Numeral.read?` — the numeral that a text is
* `Numeral.value?` — the number nearest to a numeral
* `Number.read?` — the number that a text denotes
-/

namespace LineBasic

/-- The numeral `±mantissa · 10 ^ exponent`. -/
structure Numeral where
  negative : Bool
  mantissa : Nat
  exponent : Int
deriving DecidableEq

namespace Numeral

/-- Takes a sign from the front of a text; the flag says whether it is a minus. -/
def takeSign : Bytes → Bool × Bytes
  | 0x2d :: s => (true, s)
  | 0x2b :: s => (false, s)
  | s => (false, s)

/-- Exponents stop growing at the first one of five digits: every number is then out of reach, or
zero, whatever follows. -/
def exponentValue (s : Bytes) : Nat :=
  s.foldl (fun n c => if n < 10000 then 10 * n + Byte.digitValue c else n) 0

/-- The exponent that a text is, if it is empty or an exponent. -/
def readExponent? : Bytes → Option Int
  | [] => some 0
  | c :: s =>
    if c == 0x65 || c == 0x45 then
      let (negative, digits) := takeSign s
      if digits.isEmpty || !digits.all Byte.isDigit then none
      else if negative then some (-(exponentValue digits : Int))
      else some (exponentValue digits)
    else none

/-- The numeral that a text is. -/
def read? (s : Bytes) : Option Numeral :=
  let (negative, s) := takeSign s
  let whole := s.takeWhile Byte.isDigit
  let rest := s.dropWhile Byte.isDigit
  let (fraction, rest) :=
    match rest with
    | 0x2e :: r => (r.takeWhile Byte.isDigit, r.dropWhile Byte.isDigit)
    | r => ([], r)
  if whole.isEmpty && fraction.isEmpty then none
  else
    (readExponent? rest).map fun e =>
      ⟨negative, Bytes.natural (whole ++ fraction), e - fraction.length⟩

/-- The number nearest to `mantissa · 10 ^ exponent`. -/
def magnitude (mantissa : Nat) (exponent : Int) : Float :=
  Float.ofModel (Float.Model.ofScientific mantissa exponent)

/-- How far left of the point the first significant digit stands, at most. -/
def reach (n : Numeral) : Int :=
  (Bytes.decimal n.mantissa).length + n.exponent

/-- The number nearest to a numeral, unless it is too large. Numerals whose first digit is out of
reach of every finite number are decided by that digit's place alone. -/
def value? (n : Numeral) : Option Float :=
  let signed (x : Float) : Float := if n.negative then -x else x
  if n.mantissa = 0 || n.reach < -330 then some (signed 0)
  else if 310 < n.reach then none
  else
    let x := magnitude n.mantissa n.exponent
    if x.isFinite then some (signed x) else none

end Numeral

/-- The number that a text denotes, if the text is a numeral within range. -/
def Number.read? (s : Bytes) : Option Float :=
  (Numeral.read? s).bind Numeral.value?

end LineBasic
