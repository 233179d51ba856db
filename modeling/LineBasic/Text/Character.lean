import LineBasic.Text.Bytes
import LineBasic.Text.Graphic

/-!
# Characters in byte strings

A text is any string of bytes, so reading it as characters may meet bytes that belong to no
character. Such a *stray* byte is an item of its own; a character is read only from the shortest
encoding of a code point outside the surrogate range.

## Main definitions

* `Character.Item` — a character, or a stray byte
* `Character.decode` — the items of a text
* `Character.isControl`, `Character.isPrintable` — the classes that prompts and messages ask for
-/

namespace LineBasic.Character

/-- What a text is made of when it is read as characters. -/
inductive Item where
  /-- A character. -/
  | char (c : Char)
  /-- A byte that belongs to no character. -/
  | stray (byte : UInt8)
deriving DecidableEq

/-- The character that stands for a stray byte where only characters can be written: U+FFFD. -/
def replacement : Bytes := [0xef, 0xbf, 0xbd]

/-- A continuation byte. -/
def isTail (c : UInt8) : Bool :=
  0x80 ≤ c && c ≤ 0xbf

/-- The character that a text starts with, and how many bytes follow its first one. -/
def first? : Bytes → Option (Char × Nat)
  | [] => none
  | a :: s =>
    if a < 0x80 then some (Char.ofNat a.toNat, 0)
    else
      match s with
      | [] => none
      | b :: s =>
        if !isTail b then none
        else if 0xc2 ≤ a && a ≤ 0xdf then
          some (Char.ofNat ((a.toNat - 0xc0) * 0x40 + (b.toNat - 0x80)), 1)
        else
          match s with
          | [] => none
          | c :: s =>
            if !isTail c then none
            else if 0xe0 ≤ a && a ≤ 0xef then
              if (a == 0xe0 && b < 0xa0) || (a == 0xed && 0x9f < b) then none
              else
                some (Char.ofNat ((a.toNat - 0xe0) * 0x1000 + (b.toNat - 0x80) * 0x40
                  + (c.toNat - 0x80)), 2)
            else
              match s with
              | [] => none
              | d :: _ =>
                if !isTail d || a < 0xf0 || 0xf4 < a || (a == 0xf0 && b < 0x90)
                    || (a == 0xf4 && 0x8f < b) then none
                else
                  some (Char.ofNat ((a.toNat - 0xf0) * 0x40000 + (b.toNat - 0x80) * 0x1000
                    + (c.toNat - 0x80) * 0x40 + (d.toNat - 0x80)), 3)

/-- The items of a text after `n` bytes that have been read already. -/
def decodeFrom : Nat → Bytes → List Item
  | _, [] => []
  | n + 1, _ :: s => decodeFrom n s
  | 0, c :: s =>
    match first? (c :: s) with
    | some (char, n) => .char char :: decodeFrom n s
    | none => .stray c :: decodeFrom 0 s

/-- The items of a text. -/
def decode (s : Bytes) : List Item :=
  decodeFrom 0 s

/-- Whether every byte of a text belongs to a character. -/
def isValid (s : Bytes) : Bool :=
  (decode s).all fun
    | .char _ => true
    | .stray _ => false

/-- Whether a character is a control in the wide sense: neither graphic nor a separator. -/
def isControl (c : Char) : Bool :=
  !Graphic.inRanges Graphic.ranges c.toNat && !Graphic.inRanges Graphic.separators c.toNat

/-- Whether a character is shown as itself between quotes: the space, and all that is graphic. -/
def isPrintable (c : Char) : Bool :=
  c == ' ' || Graphic.inRanges Graphic.ranges c.toNat

end LineBasic.Character
