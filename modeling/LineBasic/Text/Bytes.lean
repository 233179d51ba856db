/-!
# Byte strings

Every text that a program handles is a string of bytes: `LEN` counts bytes, `CHR$(200)` is one
byte, and a position in a line is a byte offset. Characters matter only where white space or letter
case beyond ASCII is concerned, and those rules have modules of their own.

## Main definitions

* `Bytes` — texts, as lists of bytes
* `utf8` — the bytes of a literal
* `Byte.isBlank`, `Byte.isDigit`, `Byte.isLetter`, `Byte.upper` — the ASCII classes of the language
* `Bytes.decimal`, `Bytes.natural` — natural numbers written in decimal, and read back
* `Bytes.hasPrefix?`, `Bytes.splitOn` — prefixes and separated parts
-/

namespace LineBasic

/-- A text is a list of bytes. -/
abbrev Bytes := List UInt8

/-- The UTF-8 bytes of a string. -/
def utf8 (s : String) : Bytes :=
  s.toList.flatMap String.utf8EncodeChar

namespace Byte

/-- Inside a line only space and tab are blanks. -/
def isBlank (c : UInt8) : Bool :=
  c == 0x20 || c == 0x09

/-- The digits `0` to `9`. -/
def isDigit (c : UInt8) : Bool :=
  0x30 ≤ c && c ≤ 0x39

/-- The letters `A` to `Z` in either case. -/
def isLetter (c : UInt8) : Bool :=
  (0x41 ≤ c && c ≤ 0x5a) || (0x61 ≤ c && c ≤ 0x7a)

/-- The upper-case form of an ASCII letter; every other byte is kept. -/
def upper (c : UInt8) : UInt8 :=
  if 0x61 ≤ c && c ≤ 0x7a then c - 0x20 else c

/-- The bytes that end a line of text. -/
def isLineEnd (c : UInt8) : Bool :=
  c == 0x0a || c == 0x0d

/-- The double quote. -/
def quote : UInt8 := 0x22

/-- The comma. -/
def comma : UInt8 := 0x2c

/-- The colon. -/
def colon : UInt8 := 0x3a

/-- The dollar sign, which ends the names of string slots. -/
def dollar : UInt8 := 0x24

/-- The decimal digit of a number below ten. -/
def digit (d : Nat) : UInt8 :=
  (0x30 + d).toUInt8

/-- The value of a decimal digit. -/
def digitValue (c : UInt8) : Nat :=
  c.toNat - 0x30

end Byte

namespace Bytes

/-- A natural number in decimal, without leading zeros. -/
def decimal (n : Nat) : Bytes :=
  if n < 10 then [Byte.digit n] else decimal (n / 10) ++ [Byte.digit (n % 10)]

/-- An integer in decimal, with a leading minus when it is negative. -/
def decimalInt (i : Int) : Bytes :=
  if i < 0 then 0x2d :: decimal i.natAbs else decimal i.natAbs

/-- The number that a string of digits denotes. -/
def natural (s : Bytes) : Nat :=
  s.foldl (fun n c => 10 * n + Byte.digitValue c) 0

/-- Removes the last bytes as long as they satisfy `p`. -/
def dropEndWhile (p : UInt8 → Bool) (s : Bytes) : Bytes :=
  (s.reverse.dropWhile p).reverse

/-- Removes the line ends at the end of a text. -/
def trimLineEnds (s : Bytes) : Bytes :=
  dropEndWhile Byte.isLineEnd s

/-- What remains of `s` after `p`, when `s` starts with `p`. -/
def hasPrefix? : (p s : Bytes) → Option Bytes
  | [], s => some s
  | _ :: _, [] => none
  | a :: p, c :: s => if a == c then hasPrefix? p s else none

/-- The parts of a text between the occurrences of a byte; there is always at least one. -/
def splitOn (sep : UInt8) : Bytes → List Bytes
  | [] => [[]]
  | c :: s =>
    if c == sep then [] :: splitOn sep s
    else
      match splitOn sep s with
      | [] => [[c]]
      | part :: parts => (c :: part) :: parts

/-- The bytes of a text in hexadecimal, two lower-case digits each. -/
def hex (s : Bytes) : Bytes :=
  let digit (d : Nat) : UInt8 := if d < 10 then Byte.digit d else (0x57 + d).toUInt8
  s.flatMap fun c => [digit (c.toNat / 16), digit (c.toNat % 16)]

/-- Order of texts: the first differing byte decides, and a proper prefix comes first. -/
def lt : Bytes → Bytes → Bool
  | _, [] => false
  | [], _ :: _ => true
  | a :: s, b :: t => a < b || (a == b && lt s t)

/-- Whether part of the text `s` equals `t`. -/
def contains (s t : Bytes) : Bool :=
  match s with
  | [] => t.isEmpty
  | _ :: r => t.isPrefixOf s || contains r t

end Bytes

end LineBasic
