import LineBasic.Text.Character

/-!
# Quoted texts

Messages show a text of the user between double quotes, with an escape for whatever would not
be visible: the usual one-letter escapes, `\x` with two hexadecimal digits for other ASCII controls
and stray bytes, and `\u` with four or `\U` with eight for characters that are not printable.

## Main definitions

* `Quoted.write` — a text between quotes
-/

namespace LineBasic.Quoted

/-- A number in hexadecimal with `width` lower-case digits. -/
def hexadecimal : (width : Nat) → Nat → Bytes
  | 0, _ => []
  | width + 1, n =>
    let d := n % 16
    hexadecimal width (n / 16) ++ [if d < 10 then Byte.digit d else (0x57 + d).toUInt8]

/-- The letter that follows the backslash for the characters that have a short escape. -/
def shortEscape? (c : Char) : Option Char :=
  match c.toNat with
  | 0x07 => some 'a'
  | 0x08 => some 'b'
  | 0x09 => some 't'
  | 0x0a => some 'n'
  | 0x0b => some 'v'
  | 0x0c => some 'f'
  | 0x0d => some 'r'
  | 0x22 => some '"'
  | 0x5c => some '\\'
  | _ => none

/-- The escape of a stray byte or an ASCII control. -/
def byteEscape (n : Nat) : Bytes :=
  utf8 "\\x" ++ hexadecimal 2 n

/-- A character as it stands between quotes. -/
def ofChar (c : Char) : Bytes :=
  match shortEscape? c with
  | some letter => utf8 "\\" ++ String.utf8EncodeChar letter
  | none =>
    if Character.isPrintable c then String.utf8EncodeChar c
    else if c.toNat < 0x80 then byteEscape c.toNat
    else if c.toNat < 0x10000 then utf8 "\\u" ++ hexadecimal 4 c.toNat
    else utf8 "\\U" ++ hexadecimal 8 c.toNat

/-- A text between quotes. -/
def write (s : Bytes) : Bytes :=
  [Byte.quote]
    ++ (Character.decode s).flatMap (fun
      | .char c => ofChar c
      | .stray b => byteEscape b.toNat)
    ++ [Byte.quote]

end LineBasic.Quoted
