import LineBasic.Number.Binary

/-!
# Exponentials, logarithms and powers

An exponential is a power of two and the exponential of what is left of the argument, which is short
of one half of `log 2`; a logarithm is split the same way. Powers with a whole exponent are products
of repeated squares, with the exponents of two kept apart, so that they neither overflow nor lose
digits on the way; the fraction of an exponent is left to the exponential.

## Main definitions

* `Number.exp`, `Number.log` — the exponential and the natural logarithm
* `Number.power` — powers of numbers
-/

namespace LineBasic.Number

/-- The logarithm of `e` to base two. -/
def log2e : Float := 1.4426950408889634073599246810018920

/-- The greater part of `log 2`, with so few digits that its multiples by exponents are exact. -/
def ln2High : Float := 0.69314718055966295651160180568695068359375

/-- What `ln2High` lacks of `log 2`. -/
def ln2Low : Float := 0.28235290563031577122588448175013436025525412068e-12

/-- The coefficients of the exponential series less one, divided by its argument, from the highest
one on. -/
def expSeries : List Float :=
  [2.4801587301587301587e-5, 1.9841269841269841270e-4, 1.3888888888888888889e-3,
   8.3333333333333333333e-3, 4.1666666666666666667e-2, 1.6666666666666666667e-1, 0.5, 1]

/-- What the exponential of twice an argument has beyond one, given that of the argument. -/
def doubled (x : Float) : Float :=
  x * (x + 2)

/-- The exponential of a number near zero: the series at a sixteenth of it, squared four times. -/
def expSmall (x : Float) : Float :=
  let x := x * 0.0625
  let series :=
    match expSeries with
    | [] => 0
    | c :: cs => cs.foldl (fun value c => mulAdd value x c) c
  let eighth := doubled (x * series)
  let half := doubled (doubled eighth)
  mulAdd (half + 2) half 1

/-- The least exponent of two that is too large for a number. -/
def expLimit : Int := 1024

/-- The least exponent of two at which a fraction can round to a positive number. -/
def expFloor : Int := -1075

/-- The exponential. The power of two nearest to it decides whether it is too large. -/
def exp (x : Float) : Float :=
  match nearest? (x * log2e) with
  | none => if x.isNaN then x else if 0 < x then infinity else 0
  | some n =>
    if expLimit ≤ n then infinity
    else if n < expFloor then 0
    else
      let rest := mulAdd (-ln2Low) (ofInt n) (mulAdd (-ln2High) (ofInt n) x)
      scale (expSmall rest) n

/-- The greater part of `log 2` in logarithms. -/
def logHigh : Float := 6.93147180369123816490e-01

/-- What `logHigh` lacks of `log 2`. -/
def logLow : Float := 1.90821492927058770002e-10

/-- The coefficients of the logarithm at odd places, from the highest one on. -/
def logOdd : List Float :=
  [1.479819860511658591e-01, 1.818357216161805012e-01, 2.857142874366239149e-01,
   6.666666666666735130e-01]

/-- The coefficients of the logarithm at even places, from the highest one on. -/
def logEven : List Float :=
  [1.531383769920937332e-01, 2.222219843214978396e-01, 3.999999999940941908e-01]

/-- The logarithm of `(1 + f) · 2 ^ k`, for a fraction `f` near zero. -/
def logNear (f k : Float) : Float :=
  let s := f / (2 + f)
  let s2 := s * s
  let s4 := s2 * s2
  let series := s2 * polynomial s4 logOdd + s4 * polynomial s4 logEven
  let square := 0.5 * f * f
  k * logHigh - ((square - (s * (square + series) + k * logLow)) - f)

/-- One half of the root of two. -/
def halfRoot : Float := 7.07106781186547524401e-01

/-- The natural logarithm. The fields of mantissa and exponent are taken as they stand: a subnormal
number counts as if its leading bit were set. -/
def log (x : Float) : Float :=
  if x.isNaN || x == infinity then x
  else if x < 0 then undefined
  else if x == 0 then -infinity
  else
    let bits := x.toBits.toNat
    let fraction := ofBinary (0x10000000000000 + bits % 0x10000000000000) (-53)
    let exponent := ofInt (bits / 0x10000000000000 - 1022)
    if fraction < halfRoot then logNear (fraction * 2 - 1) (exponent - 1)
    else logNear (fraction - 1) exponent

/-- Whether a number is an odd integer. -/
def isOdd (x : Float) : Bool :=
  match floor? x with
  | some i => i % 2 = 1 && ofInt i == x
  | none => false

/-- The powers of zeros; an odd exponent keeps the sign. -/
def powerOfZero (zero y : Float) : Float :=
  let result := if y < 0 then infinity else 0
  if 1 / zero < 0 && isOdd y then -result else result

/-- The powers of numbers other than zero and one to exponents so large that only their sign
counts. -/
def powerBeyond (x y : Float) : Float :=
  if x == -1 then 1
  else if (x.abs < 1) == (0 < y) then 0
  else infinity

/-- Multiplies `value · 2 ^ exponent` by the power of `x · 2 ^ k` to a natural exponent `n`, which
has at most `turns` binary digits. Exponents of two beyond all numbers end the product. -/
def multiply : (turns n : Nat) → (x : Float) → (k : Int) → (value : Float) → (exponent : Int) →
    Float × Int
  | 0, _, _, _, value, exponent => (value, exponent)
  | turns + 1, n, x, k, value, exponent =>
    if n = 0 then (value, exponent)
    else if k < -4096 || 4096 < k then (value, exponent + k)
    else
      let (value, exponent) := if n % 2 = 1 then (value * x, exponent + k) else (value, exponent)
      let square := x * x
      let (x, k) := if square < 0.5 then (square + square, k + k - 1) else (square, k + k)
      multiply turns (n / 2) x k value exponent

/-- The powers of finite numbers other than zero to finite exponents. -/
def powerOfFinite (x y : Float) : Float :=
  match floor? y.abs with
  | none => undefined
  | some whole =>
    let fraction := y.abs - ofInt whole
    if fraction != 0 && x < 0 then undefined
    else if 0x8000000000000000 ≤ whole then powerBeyond x y
    else
      let (fraction, whole) :=
        if 0.5 < fraction then (fraction - 1, whole + 1) else (fraction, whole)
      let start := if fraction == 0 then 1 else exp (fraction * log x)
      let (base, k) := split x
      let (value, exponent) := multiply 64 whole.toNat base k start 0
      if y < 0 then scale (1 / value) (-exponent) else scale value exponent

/-- The power of a number. Anything to the power of zero is one, and so is any power of one. -/
def power (x y : Float) : Float :=
  if y == 0 || x == 1 then 1
  else if y == 1 then x
  else if x.isNaN || y.isNaN then undefined
  else if x == 0 then powerOfZero x y
  else if y.isInf then powerBeyond x y
  else if x.isInf then if x < 0 then powerOfZero (1 / x) (-y) else if y < 0 then 0 else infinity
  else if y == 0.5 then x.sqrt
  else if y == -0.5 then 1 / x.sqrt
  else powerOfFinite x y

end LineBasic.Number
