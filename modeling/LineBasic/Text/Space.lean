import LineBasic.Text.Bytes

/-!
# White space

Fields of `DATA` and lines of a host's input are trimmed of *white space* in the sense of Unicode:
twenty-five characters, from tab to the ideographic space. A text need not be valid UTF-8, so the
rule is stated on bytes: a text starts with white space when it starts with the encoding of one of
these characters. No such encoding can begin inside another character, because every one of them
starts with a byte that no encoding continues with.

## Main definitions

* `Space.encodings` — the white space characters in UTF-8
* `Bytes.trim` — a text without the white space around it
* `Bytes.fields` — the runs of a text between white space
-/

namespace LineBasic

namespace Space

/-- The white space characters: U+0009 to U+000D, U+0020, U+0085, U+00A0, U+1680, U+2000 to U+200A,
U+2028, U+2029, U+202F, U+205F and U+3000. -/
def codePoints : List Nat :=
  [0x09, 0x0a, 0x0b, 0x0c, 0x0d, 0x20, 0x85, 0xa0, 0x1680, 0x2000, 0x2001, 0x2002, 0x2003, 0x2004,
   0x2005, 0x2006, 0x2007, 0x2008, 0x2009, 0x200a, 0x2028, 0x2029, 0x202f, 0x205f, 0x3000]

/-- Their UTF-8 encodings. -/
def encodings : List Bytes :=
  codePoints.map fun n => String.utf8EncodeChar (Char.ofNat n)

/-- The same encodings read from their last byte. -/
def reversedEncodings : List Bytes :=
  encodings.map List.reverse

/-- How many bytes the entry of `table` that `s` starts with has; 0 when there is none. -/
def width (table : List Bytes) (s : Bytes) : Nat :=
  match table.find? (·.isPrefixOf s) with
  | some e => e.length
  | none => 0

/-- Drops `n` bytes, and then leading entries of `table` until none is left in front. -/
def dropLeading (table : List Bytes) : Nat → Bytes → Bytes
  | _, [] => []
  | n + 1, _ :: s => dropLeading table n s
  | 0, c :: s =>
    match width table (c :: s) with
    | 0 => c :: s
    | n + 1 => dropLeading table n s

/-- The fields of a text whose first `n` bytes are white space, given the bytes of the field that
is being read, last byte first. -/
def fieldsFrom : Nat → (field : Bytes) → Bytes → List Bytes
  | _, field, [] => if field.isEmpty then [] else [field.reverse]
  | n + 1, field, _ :: s => fieldsFrom n field s
  | 0, field, c :: s =>
    match width encodings (c :: s) with
    | 0 => fieldsFrom 0 (c :: field) s
    | n + 1 => if field.isEmpty then fieldsFrom n [] s else field.reverse :: fieldsFrom n [] s

end Space

namespace Bytes

/-- A text without leading white space. -/
def trimStart (s : Bytes) : Bytes :=
  Space.dropLeading Space.encodings 0 s

/-- A text without trailing white space. -/
def trimEnd (s : Bytes) : Bytes :=
  (Space.dropLeading Space.reversedEncodings 0 s.reverse).reverse

/-- A text without white space at either end. -/
def trim (s : Bytes) : Bytes :=
  trimEnd (trimStart s)

/-- Whether a text is empty or white space only. -/
def isWhite (s : Bytes) : Bool :=
  (trimStart s).isEmpty

/-- The maximal runs of a text that hold no white space. -/
def fields (s : Bytes) : List Bytes :=
  Space.fieldsFrom 0 [] s

end Bytes

end LineBasic
