import LineBasic.Text.Bytes

/-!
# Bytes in sixty-four characters

Any string of bytes can be written in sixty-four characters, six bits in each. Four characters make
three bytes; at the end two or three characters and a filler make one or two. Line ends count for
nothing. The bits that the last characters have beyond the last byte may be anything.

## Main definitions

* `Base64.value?` — the six bits of a character
* `Base64.decode?` — the bytes that a text stands for
-/

namespace LineBasic.Base64

/-- The number that a character stands for. -/
def value? (c : UInt8) : Option Nat :=
  if 0x41 ≤ c && c ≤ 0x5a then some (c.toNat - 0x41)
  else if 0x61 ≤ c && c ≤ 0x7a then some (c.toNat - 0x61 + 26)
  else if Byte.isDigit c then some (Byte.digitValue c + 52)
  else if c == 0x2b then some 62
  else if c == 0x2f then some 63
  else none

/-- The three bytes of four numbers below sixty-four. -/
def bytes (a b c d : Nat) : Bytes :=
  [(a * 4 + b / 16).toUInt8, (b % 16 * 16 + c / 4).toUInt8, (c % 4 * 64 + d).toUInt8]

/-- The bytes that a text without line ends stands for. -/
def decodeQuanta? : Bytes → Option Bytes
  | [] => some []
  | [a, b, 0x3d, 0x3d] => do return (bytes (← value? a) (← value? b) 0 0).take 1
  | [a, b, c, 0x3d] => do return (bytes (← value? a) (← value? b) (← value? c) 0).take 2
  | a :: b :: c :: d :: s => do
    let first := bytes (← value? a) (← value? b) (← value? c) (← value? d)
    return first ++ (← decodeQuanta? s)
  | _ => none

/-- The bytes that a text stands for. -/
def decode? (s : Bytes) : Option Bytes :=
  decodeQuanta? (s.filter (!Byte.isLineEnd ·))

end LineBasic.Base64
