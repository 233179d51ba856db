import LineBasic.Host.Document.Cursor

/-!
# Tags

A tag in front of a node says what the node is meant to be. It is written as a *handle* and a
suffix, and the handle stands for the start of the tag. A document may declare handles; two are
known without that, one of them for the tags of the format itself. Those have a short form, which
starts with two exclamation marks.

## Main definitions

* `Document.Tag` — a tag as it is written
* `Document.Tag.read?` — the tag that a text starts with
* `Document.Tag.resolve?` — the tag in its short form, given what handles stand for
* `Document.Tag.str`, `Document.Tag.int`, … — the tags of the format
-/

namespace LineBasic.Document

/-- A tag as it is written. -/
structure Tag where
  /-- What stands for the start of the tag; nothing does if it is empty. -/
  handle : Bytes
  suffix : Bytes
deriving DecidableEq

namespace Tag

/-- Whether a character may stand in a tag as it is. -/
def isUriChar (c : Char) : Bool :=
  isNameChar c || ";/?:@&=+$.,!~*()[]".toList.contains c || c.toNat == 0x27

/-- The part of a tag that a text starts with, and the number of its characters. A byte may be given
by a percent sign and two digits; `more` such bytes have to follow to make up a character. -/
def uriFrom? : (more : Nat) → List Char → Option (Bytes × Nat)
  | more, '%' :: a :: b :: s => do
    let octet := ((← hexDigit? a) * 16 + (← hexDigit? b)).toUInt8
    if more = 0 then
      let width := leadWidth octet
      if width = 0 then none
      else
        let (bytes, n) ← uriFrom? (width - 1) s
        return (octet :: bytes, 3 + n)
    else if Character.isTail octet then
      let (bytes, n) ← uriFrom? (more - 1) s
      return (octet :: bytes, 3 + n)
    else none
  | more, c :: s =>
    if more ≠ 0 || c == '%' then none
    else if isUriChar c then do
      let (bytes, n) ← uriFrom? 0 s
      return (String.utf8EncodeChar c ++ bytes, 1 + n)
    else some ([], 0)
  | more, [] => if more ≠ 0 then none else some ([], 0)

/-- The part of a tag that a text starts with, which must not be empty. -/
def uri? (s : List Char) : Option (Bytes × Nat) := do
  let (bytes, n) ← uriFrom? 0 s
  if n = 0 then none else return (bytes, n)

/-- The handle that a text starts with: an exclamation mark, or two with a name between them. The
name may be empty. -/
def handle? : List Char → Option (List Char)
  | '!' :: s =>
    let name := s.takeWhile isNameChar
    if s.drop name.length |>.head? |>.any (· == '!') then some ('!' :: name ++ ['!'])
    else if name.isEmpty then some ['!']
    else none
  | _ => none

/-- The tag that a text starts with, and the number of its characters. -/
def read? (s : List Char) : Option (Tag × Nat) := do
  if s.drop 1 |>.head? |>.any (· == '<') then
    let (suffix, n) ← uri? (s.drop 2)
    if (s.drop (2 + n)).head? == some '>' then return (⟨[], suffix⟩, 3 + n) else none
  else
    match handle? s with
    | some ('!' :: d :: name) =>
      let handle := '!' :: d :: name
      let (suffix, n) ← uri? (s.drop handle.length)
      return (⟨bytesOf handle, suffix⟩, handle.length + n)
    | _ =>
      let (suffix, n) ← uriFrom? 0 (s.drop 1)
      return (if n = 0 then ⟨[], utf8 "!"⟩ else ⟨utf8 "!", suffix⟩, 1 + n)

/-- The handles that are known without being declared. -/
def knownHandles : List (Bytes × Bytes) :=
  [(utf8 "!", utf8 "!"), (utf8 "!!", utf8 "tag:yaml.org,2002:")]

/-- The short form of a tag. -/
def short (tag : Bytes) : Bytes :=
  match Bytes.hasPrefix? (utf8 "tag:yaml.org,2002:") tag with
  | some name => utf8 "!!" ++ name
  | none => tag

/-- The tag in its short form, given what the declared handles stand for; `none` if the handle is
not known. -/
def resolve? (declared : List (Bytes × Bytes)) (t : Tag) : Option Bytes :=
  if t.handle.isEmpty then some (short t.suffix)
  else ((declared ++ knownHandles).lookup t.handle).map fun start => short (start ++ t.suffix)

/-- The tag that says nothing. -/
def unspecific : Bytes := utf8 "!"

/-- The tag of texts. -/
def str : Bytes := utf8 "!!str"

/-- The tag of nothing. -/
def null : Bytes := utf8 "!!null"

/-- The tag of truth values. -/
def bool : Bytes := utf8 "!!bool"

/-- The tag of integers. -/
def int : Bytes := utf8 "!!int"

/-- The tag of real numbers. -/
def float : Bytes := utf8 "!!float"

/-- The tag of points in time. -/
def timestamp : Bytes := utf8 "!!timestamp"

/-- The tag of bytes in sixty-four characters. -/
def binary : Bytes := utf8 "!!binary"

/-- The tag of the key that stands for the entries of other mappings. -/
def merge : Bytes := utf8 "!!merge"

/-- The tag of sequences. -/
def seq : Bytes := utf8 "!!seq"

/-- The tag of mappings. -/
def map : Bytes := utf8 "!!map"

end Tag

end LineBasic.Document
