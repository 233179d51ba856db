import LineBasic.Number.Binary

/-!
# Circular functions

An angle is reduced to a rest of at most an eighth of a turn around one of the axes, and polynomials
give the functions of the rest. The octant, counted from 0 to 7 and always even after the reduction,
says around which axis the rest lies.

Small angles are reduced by subtracting a multiple of `π / 4` that is kept in three parts. For large
ones that would lose digits; the digits of `4 / π` that matter for the rest are multiplied by the
mantissa of the angle instead.

## Main definitions

* `Angle`, `Angle.reduce` — an angle as octant and rest
* `Number.sin`, `Number.cos`, `Number.tan`, `Number.atan` — the circular functions
-/

namespace LineBasic

/-- An angle: its octant and what is left of it. -/
structure Angle where
  octant : Nat
  rest : Float

namespace Angle

/-- An eighth of a turn. -/
def eighth : Float := 0.785398163397448309615660845819875721

/-- The number of eighths of a turn in the angle one. -/
def perUnit : Float := 1.27323954473516268615107010698140931

/-- The first part of an eighth of a turn. -/
def part1 : Float := 7.85398125648498535156e-1

/-- The second part of an eighth of a turn. -/
def part2 : Float := 3.77489470793079817668e-8

/-- The third part of an eighth of a turn. -/
def part3 : Float := 2.69515142907905952645e-15

/-- Reduces an angle that is not large. -/
def reduceNear (x : Float) : Angle :=
  let octant := ((Number.floor? (x * perUnit)).getD 0).toNat
  let octant := if octant % 2 = 1 then octant + 1 else octant
  let y := Number.ofNat octant
  ⟨octant % 8, ((x - y * part1) - y * part2) - y * part3⟩

/-- The binary digits of `4 / π` in words of 64 digits; the first word is its integer part. -/
def words : List Nat :=
  [0x1, 0x45f306dc9c882a53, 0xf84eafa3ea69bb81, 0xb6c52b3278872083, 0xfca2c757bd778ac3,
   0x6e48dc74849ba5c0, 0x0c925dd413a32439, 0xfc3bd63962534e7d, 0xd1046bea5d768909,
   0xd338e04d68befc82, 0x7323ac7306a673e9, 0x3908bf177bf25076, 0x3ff12fffbc0b301f,
   0xde5e2316b414da3e, 0xda6cfd9e4f96136e, 0x9e8c7ecd3cbfd45a, 0xea4f758fd7cbe2f6,
   0x7a0e73ef14a525d4, 0xd7f6bf623f1aba10, 0xac06608df8f6d757]

/-- The same digits as one number. -/
def digits : Nat :=
  words.foldl (fun n word => n <<< 64 + word) 0

/-- The fraction of which `high` has the first 64 binary digits, cut off to what a number can hold.
Where the first digits are zeros, digits of `low` fill up. -/
def fraction (high low : Nat) : Float :=
  let width := 64 - (high.log2 + 1)
  let filled := (high <<< (width + 1) ||| low >>> (63 - width)) % Nat.pow 2 64
  Number.ofBinary (Nat.pow 2 52 + filled >>> 12) (-(width + 53))

/-- Reduces the angle `m · 2 ^ e`. Of the digits of `4 / π`, 192 count: those before contribute
whole turns to the product, and those behind nothing that a number could hold. -/
def reduceFar (m : Nat) (e : Int) : Angle :=
  let window := digits >>> (1027 - e).toNat % Nat.pow 2 192
  let product := (m * window) >>> 64 % Nat.pow 2 128
  let octant := product >>> 125
  let rest := fraction (product >>> 61 % Nat.pow 2 64) (product % Nat.pow 2 64)
  if octant % 2 = 1 then ⟨(octant + 1) % 8, (rest - 1) * eighth⟩ else ⟨octant, rest * eighth⟩

/-- The least angle that counts as large. -/
def large : Float := 536870912

/-- Reduces a finite angle that is not negative. -/
def reduce (x : Float) : Angle :=
  if x < large then reduceNear x
  else
    match Number.binary? x with
    | some (m, e) => reduceFar m.toNat e
    | none => ⟨0, x⟩

/-- The coefficients of the sine beyond its first term, from the highest one on. -/
def sinSeries : List Float :=
  [1.58962301576546568060e-10, -2.50507477628578072866e-8, 2.75573136213857245213e-6,
   -1.98412698295895385996e-4, 8.33333333332211858878e-3, -1.66666666666666307295e-1]

/-- The coefficients of the cosine beyond its first two terms, from the highest one on. -/
def cosSeries : List Float :=
  [-1.13585365213876817300e-11, 2.08757008419747316778e-9, -2.75573141792967388112e-7,
   2.48015872888517045348e-5, -1.38888888888730564116e-3, 4.16666666666665929218e-2]

/-- The sine of at most an eighth of a turn. -/
def sinRest (z : Float) : Float :=
  let zz := z * z
  z + z * zz * Number.polynomial zz sinSeries

/-- The cosine of at most an eighth of a turn. -/
def cosRest (z : Float) : Float :=
  let zz := z * z
  1 - 0.5 * zz + zz * zz * Number.polynomial zz cosSeries

/-- The coefficients of the numerator of the tangent beyond its first term, from the highest one
on. -/
def tanAbove : List Float :=
  [-1.30936939181383734205e4, 1.15351664838587416140e6, -1.79565251976484877988e7]

/-- The coefficients of the denominator of the tangent beyond its first term, from the highest one
on. -/
def tanBelow : List Float :=
  [1, 1.36812963470692954678e4, -1.32089234440210967447e6, 2.50083801823357915839e7,
   -5.38695755929454629881e7]

/-- The tangent of at most an eighth of a turn. A very small angle is its own tangent. -/
def tanRest (z : Float) : Float :=
  let zz := z * z
  if 1e-14 < zz then
    z + z * (zz * Number.polynomial zz tanAbove / Number.polynomial zz tanBelow)
  else z

/-- Whether the rest of an angle lies around the second axis. -/
def isUpright (a : Angle) : Bool :=
  a.octant % 4 = 1 || a.octant % 4 = 2

/-- Whether an angle is at least half a turn, or its rest is around the end of it. -/
def isBeyond (a : Angle) : Bool :=
  3 < a.octant

end Angle

namespace Number

/-- The negative of a number if the condition holds. -/
def negateIf (condition : Bool) (x : Float) : Float :=
  if condition then -x else x

/-- The sine. -/
def sin (x : Float) : Float :=
  if x == 0 || x.isNaN then x
  else if x.isInf then undefined
  else
    let a := Angle.reduce x.abs
    let y := if a.isUpright then Angle.cosRest a.rest else Angle.sinRest a.rest
    negateIf (decide (x < 0) != a.isBeyond) y

/-- The cosine. -/
def cos (x : Float) : Float :=
  if x.isNaN || x.isInf then undefined
  else
    let a := Angle.reduce x.abs
    let y := if a.isUpright then Angle.sinRest a.rest else Angle.cosRest a.rest
    negateIf (a.isBeyond != decide (1 < a.octant % 4)) y

/-- The tangent. -/
def tan (x : Float) : Float :=
  if x == 0 || x.isNaN then x
  else if x.isInf then undefined
  else
    let a := Angle.reduce x.abs
    let y := Angle.tanRest a.rest
    let y := if a.octant % 4 = 2 || a.octant % 4 = 3 then -1 / y else y
    negateIf (x < 0) y

/-- The coefficients of the numerator of the inverse tangent beyond its first term, from the highest
one on. -/
def atanAbove : List Float :=
  [-8.750608600031904122785e-01, -1.615753718733365076637e+01, -7.500855792314704667340e+01,
   -1.228866684490136173410e+02, -6.485021904942025371773e+01]

/-- The coefficients of the denominator of the inverse tangent beyond its first term, from the
highest one on. -/
def atanBelow : List Float :=
  [1, 2.485846490142306297962e+01, 1.650270098316988542046e+02, 4.328810604912902668951e+02,
   4.853903996359136964868e+02, 1.945506571482613964425e+02]

/-- The inverse tangent of a number from 0 to 0.66. -/
def atanSmall (x : Float) : Float :=
  let z := x * x
  x * (z * polynomial z atanAbove / polynomial z atanBelow) + x

/-- A quarter of a turn. -/
def quarter : Float := 1.57079632679489661923132169163975144

/-- What `quarter` lacks of a quarter of a turn. -/
def quarterRest : Float := 6.123233995736765886130e-17

/-- The tangent of three sixteenths of a turn. -/
def tanSteep : Float := 2.41421356237309504880

/-- The inverse tangent of a positive number. -/
def atanPositive (x : Float) : Float :=
  if x ≤ 0.66 then atanSmall x
  else if tanSteep < x then quarter - atanSmall (1 / x) + quarterRest
  else Angle.eighth + atanSmall ((x - 1) / (x + 1)) + 0.5 * quarterRest

/-- The inverse tangent. -/
def atan (x : Float) : Float :=
  if x == 0 then x
  else if 0 < x then atanPositive x
  else -atanPositive (-x)

end Number

end LineBasic
