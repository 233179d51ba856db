import LineBasic.Number.Integral

/-!
# Numbers in base two

Every finite number is an integer times a power of two, and every such product has a nearest number.
What is computed exactly on the integers is so rounded once.

## Main definitions

* `Number.ofBinary` — the number nearest to an integer times a power of two
* `Number.binary?` — a finite number as an integer times a power of two
* `Number.split`, `Number.scale` — take a power of two out of a number, or put it in
* `Number.mulAdd` — a product and a sum, rounded once
* `Number.nearest?` — the integer nearest to a number
-/

namespace LineBasic.Number

open Float.Model.UnpackedFloat in
/-- The number nearest to `n · 2 ^ e`. -/
def ofBinary (n e : Int) : Float :=
  Float.ofModel (Float.Model.pack (normalize .binary64 n e .positive))

open Float.Model.UnpackedFloat in
/-- The integers `n` and `e` of which a finite number is `n · 2 ^ e`. -/
def binary? (x : Float) : Option (Int × Int) :=
  match x.toModel.unpack with
  | .notANumber | .infinity _ => none
  | .zero _ => some (0, 0)
  | .finite sign m e _ => some (sign.apply m, e)

/-- The positive number without bound. -/
def infinity : Float := 1 / 0

/-- What is not a number. -/
def undefined : Float := 0 / 0

/-- The product of a number and `2 ^ k`; zeros keep their sign. -/
def scale (x : Float) (k : Int) : Float :=
  match binary? x with
  | some (n, e) => if n = 0 then x else ofBinary n (e + k)
  | none => x

/-- A fraction from one half up to one, with the sign of a number, and the exponent of two that
makes the number of it. Zero is its own fraction. -/
def split (x : Float) : Float × Int :=
  match binary? x with
  | some (n, e) =>
    if n = 0 then (x, 0)
    else
      let width : Int := n.natAbs.log2 + 1
      (ofBinary n (-width), e + width)
  | none => (x, 0)

/-- The number nearest to `x · y + z`, for finite numbers. -/
def mulAdd (x y z : Float) : Float :=
  match binary? x, binary? y, binary? z with
  | some (n, e), some (m, f), some (k, g) =>
    let low := min (e + f) g
    ofBinary (n * m * Nat.pow 2 (e + f - low).toNat + k * Nat.pow 2 (g - low).toNat) low
  | _, _, _ => x * y + z

/-- The integer nearest to a number, and of two the even one. -/
def nearest? (x : Float) : Option Int :=
  (floor? x).map fun i =>
    let rest := x - ofInt i
    if rest < 0.5 then i
    else if 0.5 < rest then i + 1
    else if i % 2 = 0 then i
    else i + 1

/-- The value of a polynomial in `x`, by its coefficients from the highest one on. -/
def polynomial (x : Float) : List Float → Float
  | [] => 0
  | c :: cs => cs.foldl (fun value c => value * x + c) c

end LineBasic.Number
