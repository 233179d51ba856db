import LineBasic.Text.Bytes

/-!
# Integers as text

Hosts read integers from flags, configuration files and process tables: an optional sign and digits,
within 64 bits. Where any base is allowed, `0x`, `0o`, `0b` and a leading `0` choose the base, and
an underscore may stand between two digits or after the prefix.

## Main definitions

* `Integer.Refusal` — why a text is no integer
* `Integer.read` — the integer that a text is
-/

namespace LineBasic.Integer

/-- Why a text is no integer. -/
inductive Refusal where
  /-- It is not written as one. -/
  | malformed
  /-- It does not fit into 64 bits. -/
  | outOfRange
deriving DecidableEq

/-- The number of values of 64 bits. -/
def size : Nat := 0x10000000000000000

/-- The least integer that is too large for 64 bits with a sign. -/
def bound : Nat := 0x8000000000000000

/-- Whether an integer fits into 64 bits with its sign. -/
def isWord (i : Int) : Bool :=
  -bound ≤ i && i < bound

/-- The lower-case form of an ASCII letter. -/
def lower (c : UInt8) : UInt8 :=
  if 0x41 ≤ c && c ≤ 0x5a then c + 0x20 else c

/-- The value of a digit; letters count on from ten. -/
def digit? (c : UInt8) : Option Nat :=
  if Byte.isDigit c then some (Byte.digitValue c)
  else if Byte.isLetter c then some ((lower c).toNat - 0x57)
  else none

/-- The underscore. -/
def underscore : UInt8 := 0x5f

/-- The number that digits denote after `n`. The first digit that is none, or that leads beyond 64
bits, decides. Underscores are passed over if they are allowed. -/
def readDigits (base : Nat) (underscores : Bool) : (n : Nat) → Bytes → Except Refusal Nat
  | n, [] => .ok n
  | n, c :: s =>
    if underscores && c == underscore then readDigits base underscores n s
    else
      match digit? c with
      | none => .error .malformed
      | some d =>
        if base ≤ d then .error .malformed
        else if size ≤ n * base + d then .error .outOfRange
        else readDigits base underscores (n * base + d) s

/-- The base that a text without sign chooses, and its digits. -/
def splitBase : Bytes → Nat × Bytes
  | 0x30 :: c :: d :: s =>
    match lower c with
    | 0x62 => (2, d :: s)
    | 0x6f => (8, d :: s)
    | 0x78 => (16, d :: s)
    | _ => (8, c :: d :: s)
  | 0x30 :: s => (8, s)
  | s => (10, s)

/-- Whether each underscore of `s` has a digit on both sides; the flag says whether a digit, or a
prefix that counts as one, is in front of `s`. -/
def underscoresFit : (afterDigit : Bool) → Bytes → Bool
  | _, [] => true
  | afterDigit, c :: s =>
    if c == underscore then
      afterDigit && (match s with
        | [] => false
        | d :: _ => (digit? d).isSome) && underscoresFit false s
    else underscoresFit (digit? c).isSome s

/-- Whether the underscores of a text without sign are in place. -/
def underscoresOk (s : Bytes) : Bool :=
  match s with
  | 0x30 :: c :: r =>
    if (digit? c).any (10 ≤ ·) then underscoresFit true r else underscoresFit false s
  | _ => underscoresFit false s

/-- Takes a sign from the front of a text; the flag says whether it is a minus. -/
def takeSign : Bytes → Bool × Bytes
  | 0x2d :: s => (true, s)
  | 0x2b :: s => (false, s)
  | s => (false, s)

/-- The integer that a text is, in decimal or in any base. -/
def read (anyBase : Bool) (s : Bytes) : Except Refusal Int := do
  let (negative, s) := takeSign s
  if s.isEmpty then throw .malformed
  let (base, digits) := if anyBase then splitBase s else (10, s)
  let n ← readDigits base anyBase 0 digits
  if anyBase && !underscoresOk s then throw .malformed
  if negative then
    if bound < n then throw .outOfRange else return -(n : Int)
  else
    if bound ≤ n then throw .outOfRange else return n

/-- The natural number that a text without a sign is, in any base. -/
def readUnsigned (s : Bytes) : Except Refusal Nat := do
  if s.isEmpty then throw .malformed
  let (base, digits) := splitBase s
  let n ← readDigits base true 0 digits
  if underscoresOk s then return n else throw .malformed

end LineBasic.Integer
