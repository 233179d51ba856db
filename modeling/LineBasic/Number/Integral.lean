/-!
# Integer parts

Subscripts, counts and line numbers are integers that arrive as numbers. A finite number is
`±mantissa · 2 ^ exponent`, so its integer part is a shift of the mantissa and exact for every
magnitude.

## Main definitions

* `Number.floor?` — the greatest integer not above a finite number
* `Number.floor` — the same as a number
* `Number.natural?` — the natural number that a number is
* `Number.ofNat` — the number nearest to a natural number
-/

namespace LineBasic.Number

open Float.Model.UnpackedFloat in
/-- The greatest integer not above a number; infinities and NaN have none. -/
def floor? (x : Float) : Option Int :=
  match x.toModel.unpack with
  | .notANumber | .infinity _ => none
  | .zero _ => some 0
  | .finite sign m e _ =>
    let signed : Int := sign.apply m
    some (if 0 ≤ e then signed * Nat.pow 2 e.toNat else signed.fdiv (Nat.pow 2 (-e).toNat))

/-- The number nearest to an integer. -/
def ofInt (i : Int) : Float :=
  Float.ofModel (Float.Model.ofInt i)

/-- The number nearest to a natural number. -/
def ofNat (n : Nat) : Float :=
  ofInt n

/-- A number rounded down to an integer. Zeros keep their sign, and infinities and NaN are kept. -/
def floor (x : Float) : Float :=
  match x.toModel.unpack with
  | .finite .. => ((floor? x).map ofInt).getD x
  | _ => x

/-- The natural number that a number is equal to. -/
def natural? (x : Float) : Option Nat :=
  match floor? x with
  | some i => if 0 ≤ i && ofInt i == x then some i.toNat else none
  | none => none

end LineBasic.Number
