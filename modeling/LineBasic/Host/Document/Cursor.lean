import LineBasic.Host.Document.Encoding

/-!
# Walking through a document

A document is a text of characters in lines. Besides the line feed and the carriage return, alone or
together, three more characters end a line; one of them reads as a line feed like those, the line
and the paragraph separator are kept as they are. A *cursor* knows what is left of the text and
where in the text that is.

## Main definitions

* `Document.isBlank`, `Document.isBreak` — blanks and line breaks
* `Document.Cursor` — what is left of a text, and where it is
* `Document.Cursor.skip`, `Document.Cursor.skipBreak` — pass characters, or a line break
* `Document.isNameChar`, `Document.hexDigit?` — the characters of names, and of numbers to base 16
-/

namespace LineBasic.Document

/-- The blanks inside a line. -/
def isBlank (c : Char) : Bool :=
  c == ' ' || c == '\t'

/-- The characters that end a line. -/
def isBreak (c : Char) : Bool :=
  c == '\n' || c == '\r' || c.toNat == 0x85 || c.toNat == 0x2028 || c.toNat == 0x2029

/-- Whether a character is a blank or ends a line. -/
def isWhite (c : Char) : Bool :=
  isBlank c || isBreak c

/-- Whether a text is used up or goes on with a blank or a line break. -/
def startsWhite : List Char → Bool
  | [] => true
  | c :: _ => isWhite c

/-- Whether a character may stand in a name. -/
def isNameChar (c : Char) : Bool :=
  c.isAlphanum || c == '_' || c == '-'

/-- The bytes of characters. -/
def bytesOf (s : List Char) : Bytes :=
  s.flatMap String.utf8EncodeChar

/-- The value of a hexadecimal digit. -/
def hexDigit? (c : Char) : Option Nat :=
  if c.isDigit then some (c.toNat - 0x30)
  else if 'a' ≤ c && c ≤ 'f' then some (c.toNat - 0x57)
  else if 'A' ≤ c && c ≤ 'F' then some (c.toNat - 0x37)
  else none

/-- What a text has after its first line break, and what that break reads as. -/
def dropBreak : List Char → List Char × Char
  | '\r' :: '\n' :: s => (s, '\n')
  | c :: s => (s, if c.toNat == 0x2028 || c.toNat == 0x2029 then c else '\n')
  | [] => ([], '\n')

/-- The number of characters of the line break that a text starts with. -/
def breakWidth : List Char → Nat
  | '\r' :: '\n' :: _ => 2
  | _ :: _ => 1
  | [] => 0

/-- What is left of a text, and where it is. -/
structure Cursor where
  rest : List Char
  /-- The number of characters of the whole text. -/
  size : Nat := rest.length
  /-- The number of characters before it. -/
  index : Nat := 0
  line : Nat := 0
  column : Nat := 0
  /-- The line breaks since the last character that is not white. -/
  breaks : Nat := 0
  /-- The number of characters, from the start of the text, that have been looked at in advance. -/
  seen : Nat := 0

namespace Cursor

/-- Passes characters, of which none ends a line. -/
def skip (c : Cursor) (n : Nat) : Cursor :=
  { c with
    rest := c.rest.drop n
    index := c.index + n
    column := c.column + n
    breaks := if (c.rest.take n).all isBlank then c.breaks else 0 }

/-- Passes a line break. -/
def skipBreak (c : Cursor) : Cursor :=
  { c with
    rest := (dropBreak c.rest).1
    index := c.index + breakWidth c.rest
    line := c.line + 1
    column := 0
    breaks := c.breaks + 1 }

/-- The number of characters that are left. -/
def left (c : Cursor) : Nat :=
  c.size - c.index

/-- Looks at the next `n` characters. -/
def look (c : Cursor) (n : Nat) : Cursor :=
  { c with seen := max c.seen (c.index + n) }

/-- What the line break at the cursor reads as. -/
def breakChar (c : Cursor) : Char :=
  (dropBreak c.rest).2

/-- Passes the characters that satisfy `p`, of which none ends a line. -/
def skipWhile (p : Char → Bool) (c : Cursor) : Cursor :=
  c.skip (c.rest.takeWhile p).length

/-- The character at the cursor, if there is one. -/
def peek? (c : Cursor) : Option Char :=
  c.rest.head?

/-- Whether the cursor is at this character. -/
def isAt (c : Cursor) (char : Char) : Bool :=
  c.peek? == some char

/-- Whether the cursor is at a line break. -/
def atBreak (c : Cursor) : Bool :=
  c.peek?.any isBreak

/-- Whether the cursor is at a line break or the end of the text. -/
def atLineEnd (c : Cursor) : Bool :=
  c.rest.isEmpty || c.atBreak

/-- Whether the cursor is at a line that starts with three hyphens, or three full stops, and nothing
right after them. -/
def atMarker (c : Cursor) (char : Char) : Bool :=
  match c.column, c.rest with
  | 0, x :: y :: z :: rest => x == char && y == char && z == char && startsWhite rest
  | _, _ => false

/-- The number of characters that show whether a document starts or ends. -/
def markerWidth : Nat := 4

/-- Whether the cursor is where a document starts or ends. -/
def atAnyMarker (c : Cursor) : Bool :=
  c.atMarker '-' || c.atMarker '.'

end Cursor

end LineBasic.Document
