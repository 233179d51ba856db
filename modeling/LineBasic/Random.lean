import LineBasic.Number.Integral

/-!
# Random numbers

A permuted congruential generator: a state of 128 bits goes through a linear congruence, and 64 bits
are mixed from its halves. The same seed always gives the same numbers.

## Main definitions

* `Random` — the state of the generator
* `Random.ofSeed` — the state for a seed
* `Random.draw` — the next number in `[0, 1)` and the next state
-/

namespace LineBasic

/-- The state of the random number generator. -/
structure Random where
  state : BitVec 128
deriving DecidableEq

namespace Random

/-- The number of values of half a state. -/
def half : Nat := 0x10000000000000000

/-- The multiplier of the congruence. -/
def multiplier : BitVec 128 :=
  BitVec.ofNat 128 (2549297995355413924 * half + 4865540595714422341)

/-- The increment of the congruence. -/
def increment : BitVec 128 :=
  BitVec.ofNat 128 (6364136223846793005 * half + 1442695040888963407)

/-- The state for a seed, which counts modulo `2 ^ 64`. -/
def ofSeed (seed : Int) : Random :=
  ⟨BitVec.ofNat 128 ((seed % half).toNat * half + 0x5eed)⟩

/-- Mixes the halves of a state into 64 bits. -/
def mix (hi lo : UInt64) : UInt64 :=
  let hi := hi ^^^ (hi >>> 32)
  let hi := hi * 0xda942042e4dd58b5
  let hi := hi ^^^ (hi >>> 48)
  hi * (lo ||| 1)

/-- The number of values of a random number. -/
def steps : Nat := 0x20000000000000

/-- The next number, in steps of `2 ^ -53`, and the next state. -/
def draw (r : Random) : Float × Random :=
  let state := r.state * multiplier + increment
  let bits := mix (state.toNat / half).toUInt64 (state.toNat % half).toUInt64
  (Number.ofNat (bits.toNat % steps) / Number.ofNat steps, ⟨state⟩)

end Random

end LineBasic
