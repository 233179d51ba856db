import LineBasic.Text.Character

/-!
# Encodings of documents

A document comes as bytes. A mark in front of it shows how its characters are written: as UTF-8,
which they are without a mark too, or in units of sixteen bits, of which either byte may come first.

Not every character may stand in a document, and not all bytes are a character. Where a text goes
wrong, it is *cut*: what comes before can be read, and there is no going on. A text is looked at in
portions of 512 bytes, so the cut is in front of the portion that has the fault; only where the text
ends in the middle of a character, it is right there.

## Main definitions

* `Document.Encoding`, `Document.Encoding.detect` — how characters are written
* `Document.Encoding.next` — the character that a text starts with
* `Document.Source`, `Document.Source.ofBytes` — the characters of a text
-/

namespace LineBasic.Document

/-- Whether a character may stand in a document. -/
def isAllowed (c : Char) : Bool :=
  let n := c.toNat
  n == 0x09 || n == 0x0a || n == 0x0d || (0x20 ≤ n && n ≤ 0x7e) || n == 0x85
    || (0xa0 ≤ n && n ≤ 0xfffd) || 0x10000 ≤ n

/-- The mark that may stand in front of a text to show its encoding. -/
def byteOrderMark : Char := Char.ofNat 0xfeff

/-- The number of bytes of a character whose first byte is `c`; zero if there is no such
character. -/
def leadWidth (c : UInt8) : Nat :=
  if c < 0x80 then 1
  else if c < 0xc0 then 0
  else if c < 0xe0 then 2
  else if c < 0xf0 then 3
  else if c < 0xf8 then 4
  else 0

/-- How characters are written. -/
inductive Encoding where
  /-- In one to four bytes. -/
  | octets
  /-- In one or two units of sixteen bits; the flag says whether the high byte comes first. -/
  | units (highFirst : Bool)
deriving DecidableEq

/-- What a text starts with. -/
inductive Step where
  /-- A character of so many bytes. -/
  | char (c : Char) (width : Nat)
  /-- The first bytes of a character. -/
  | short
  /-- Bytes that are no character, or one that may not stand in a document. -/
  | bad
deriving DecidableEq

/-- A character with its width, if it may stand in a document. -/
def Step.ofChar (c : Char) (width : Nat) : Step :=
  if isAllowed c then .char c width else .bad

namespace Encoding

/-- The encoding of a text, and the number of bytes of its mark. -/
def detect : Bytes → Encoding × Nat
  | 0xff :: 0xfe :: _ => (units false, 2)
  | 0xfe :: 0xff :: _ => (units true, 2)
  | 0xef :: 0xbb :: 0xbf :: _ => (octets, 3)
  | _ => (octets, 0)

/-- What a text in UTF-8 starts with. -/
def nextOctets : Bytes → Step
  | [] => .short
  | c :: s =>
    let width := leadWidth c
    if width = 0 then .bad
    else if s.length + 1 < width then .short
    else
      match Character.first? ((c :: s).take width) with
      | some (char, _) => .ofChar char width
      | none => .bad

/-- The unit of sixteen bits that two bytes are. -/
def unit (highFirst : Bool) (a b : UInt8) : Nat :=
  if highFirst then a.toNat * 0x100 + b.toNat else b.toNat * 0x100 + a.toNat

/-- What a text in units of sixteen bits starts with. A unit of the high surrogates needs one of the
low ones after it, and these do not stand alone. -/
def nextUnits (highFirst : Bool) : Bytes → Step
  | a :: b :: s =>
    let high := unit highFirst a b
    if 0xdc00 ≤ high && high ≤ 0xdfff then .bad
    else if 0xd800 ≤ high && high ≤ 0xdbff then
      match s with
      | c :: d :: _ =>
        let low := unit highFirst c d
        if 0xdc00 ≤ low && low ≤ 0xdfff then
          .ofChar (Char.ofNat (0x10000 + (high - 0xd800) * 0x400 + (low - 0xdc00))) 4
        else .bad
      | _ => .short
    else .ofChar (Char.ofNat high) 2
  | _ => .short

/-- What a text starts with. -/
def next : Encoding → Bytes → Step
  | octets, s => nextOctets s
  | units highFirst, s => nextUnits highFirst s

end Encoding

/-- Why a portion of a text ends. -/
inductive Ending where
  /-- There is more, for the next portion. -/
  | full
  /-- The text ends. -/
  | done
  /-- The text ends inside a character. -/
  | short
  /-- There is no going on. -/
  | bad
deriving DecidableEq

/-- A portion of a text: its characters, why it ends, and what is left. -/
structure Portion where
  chars : List Char := []
  ending : Ending
  rest : Bytes := []

/-- The number of bytes of a portion. -/
def Portion.size : Nat := 512

/-- The rest of a portion for which there is `room`, after `n` bytes that have been read already. -/
def Portion.ofBytes (e : Encoding) : (n room : Nat) → Bytes → Portion
  | _, _, [] => { ending := .done }
  | n + 1, room, _ :: s => ofBytes e n room s
  | 0, room, c :: s =>
    match e.next ((c :: s).take (min 4 room)) with
    | .char char width =>
      let p := ofBytes e (width - 1) (room - width) s
      { p with chars := char :: p.chars }
    | .short => { ending := if s.length < room then .short else .full, rest := c :: s }
    | .bad => { ending := .bad }

/-- The characters of the portions of a text, at most `n` of them, of which the first has `room`
bytes; and whether the text is cut after them. -/
def portions (e : Encoding) : (n room : Nat) → Bytes → List (List Char) × Bool
  | 0, _, _ => ([], true)
  | n + 1, room, s =>
    let p := Portion.ofBytes e 0 room s
    match p.ending with
    | .full =>
      let (rest, isCut) := portions e n Portion.size p.rest
      (p.chars :: rest, isCut)
    | .done => ([p.chars], false)
    | .short => ([p.chars], true)
    | .bad => ([], true)

/-- The characters of a text that can be read. -/
structure Source where
  chars : List Char
  /-- Whether the text goes wrong after them. -/
  isCut : Bool := false
  /-- The number of characters in the first portion. -/
  first : Nat := chars.length

/-- The characters of a text, without the mark in front of it. -/
def Source.ofBytes (text : Bytes) : Source :=
  let (e, mark) := Encoding.detect text
  let (parts, isCut) := portions e (text.length + 1) (Portion.size - mark) (text.drop mark)
  { chars := parts.flatten, isCut, first := (parts.head?.map List.length).getD 0 }

end LineBasic.Document
