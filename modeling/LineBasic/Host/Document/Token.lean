import LineBasic.Host.Document.Tag
import LineBasic.Host.Document.Text

/-!
# Tokens of documents

A document is cut into tokens before its structure is read. Most tokens are marks or scalars; the
tokens that open and close blocks come from the indentation. That something is a key shows only when
its colon is met: the token for the key, and the one that opens its block, are then put in front of
it. Such a *simple key* must be on one line with its colon, and not far from it.

Scanning goes on until the end of the text or the first fault. A fault beyond the first document
does no harm unless it is close behind, so the tokens in front of it are kept. So is the knowledge
which of them might have become keys: such a token is held back until its line is over or its colon
is met.

## Main definitions

* `Document.Token` — a token of a document
* `Document.Scanner` — what has been cut, and what is left
* `Document.Scanner.next?` — cuts one more token
* `Document.Tokens`, `Document.Tokens.ofSource` — the tokens of a text
-/

namespace LineBasic.Document

/-- A token of a document. -/
inductive Token where
  | streamStart
  | streamEnd
  | version (major minor : Nat)
  | tagHandle (handle start : Bytes)
  | documentStart
  | documentEnd
  | blockSequence
  | blockMapping
  | blockEnd
  | openBracket
  | closeBracket
  | openBrace
  | closeBrace
  | comma
  | entry
  | key
  | value
  | reference (name : List Char)
  | anchor (name : List Char)
  | tag (t : Tag)
  | scalar (line : Nat) (isPlain : Bool) (text : List Char)
deriving DecidableEq

/-- Something that may turn out to be a key. -/
structure SimpleKey where
  /-- Whether nothing else is possible in its place. -/
  isRequired : Bool
  /-- The number of tokens before it. -/
  number : Nat
  cursor : Cursor
  /-- Whether it is not given out before it is settled. -/
  isHeld : Bool := true

/-- What has been cut of a text, and what is left of it. -/
structure Scanner where
  cursor : Cursor
  /-- The tokens, last one first. -/
  tokens : List Token := [.streamStart]
  /-- The number of tokens. -/
  count : Nat := tokens.length
  /-- The columns of the blocks that are open, innermost first. -/
  indents : List Nat := []
  /-- What may be a key at the current depth of brackets. -/
  key : Option SimpleKey := none
  /-- The number of tokens before the innermost bracket, unless there was a possible key since. -/
  opening : Option Nat := none
  /-- The same for the brackets outside. -/
  outerKeys : List (Option SimpleKey × Option Nat) := []
  /-- Whether a simple key may start here. -/
  keyAllowed : Bool := true
  /-- Whether the text goes wrong where it ends. -/
  isCut : Bool := false
  /-- If there is a second mark of the encoding, the number of characters for which it counts. -/
  marked : Nat := 0

namespace Scanner

/-- Whether the cursor is inside brackets. -/
def inFlow (s : Scanner) : Bool :=
  !s.outerKeys.isEmpty

/-- The column of the innermost block. -/
def indent? (s : Scanner) : Option Nat :=
  s.indents.head?

/-- Adds a token. -/
def add (s : Scanner) (t : Token) : Scanner :=
  { s with tokens := t :: s.tokens, count := s.count + 1 }

/-- Puts a token in front of the token of a number. -/
def insert (s : Scanner) (number : Nat) (t : Token) : Scanner :=
  let n := s.count - number
  { s with tokens := s.tokens.take n ++ t :: s.tokens.drop n, count := s.count + 1 }

/-- Passes characters. -/
def skip (s : Scanner) (n : Nat) : Scanner :=
  { s with cursor := s.cursor.skip n }

/-- Gives up what might have been a key; this fails if it had to be one. -/
def dropKey? (s : Scanner) : Option Scanner :=
  if s.key.any (·.isRequired) then none else some { s with key := none }

/-- Notes that a key may start here, if one is allowed. -/
def noteKey? (s : Scanner) : Option Scanner :=
  if s.keyAllowed then do
    let s ← s.dropKey?
    let isRequired := !s.inFlow && s.indent? == some s.cursor.column
    return { s with
      key := some { isRequired, number := s.count, cursor := s.cursor }, opening := none }
  else some s

/-- How far a key may be from its colon. -/
def maxKey : Nat := 1024

/-- Whether something can be a key whose colon is at the cursor. -/
def isKey (s : Scanner) (k : SimpleKey) : Bool :=
  s.cursor.line ≤ k.cursor.line && s.cursor.index ≤ k.cursor.index + maxKey

/-- The numbers of the tokens that are held back because they may turn out to be keys. -/
def heldKeys (s : Scanner) : List Nat :=
  (s.key :: s.outerKeys.map (·.1)).filterMap fun
    | some k => if k.isHeld && s.isKey k then some k.number else none
    | none => none

/-- The number of tokens that have been given out by now: all but the last two, up to one that is
held back. -/
def given (s : Scanner) : Nat :=
  s.heldKeys.foldl min (s.count - 2)

/-- Opens a block at a column unless it is already open; `t` goes in front of the token of a number,
or to the end. -/
def openBlock (s : Scanner) (column : Nat) (number : Option Nat) (t : Token) : Scanner :=
  if s.inFlow || s.indent?.any (column ≤ ·) then s
  else
    let s := { s with indents := column :: s.indents }
    match number with
    | some number => s.insert number t
    | none => s.add t

/-- Closes the open blocks that satisfy `p`, from the innermost on. -/
def closeBlocks (s : Scanner) (p : Nat → Bool) : Scanner :=
  if s.inFlow then s
  else
    let closed := s.indents.takeWhile p
    { s with
      indents := s.indents.drop closed.length
      tokens := closed.map (fun _ => Token.blockEnd) ++ s.tokens
      count := s.count + closed.length }

/-- Passes the comment at the cursor, and further comments that only white space separates from it,
at most `n` of them. -/
def skipComments : (n : Nat) → Cursor → Cursor
  | 0, c => c
  | n + 1, c =>
    let c := c.skipWhile (!isBreak ·)
    let isGap (x : Char) : Bool := isBlank x || x == '\n' || x == '\r'
    match c.rest with
    | [] => c
    | x :: rest =>
      let gap := rest.takeWhile isGap
      let c := c.look (gap.length + 2)
      if isGap x && (rest.drop gap.length).head? == some '#' && gap.length ≤ 510 then
        skipComments n (Gap.complete 0 {} c).2
      else c

/-- Whether the character at the cursor is taken for a mark of the encoding. A second mark is one,
and while it is in view, so is whatever starts a line. -/
def atMark (s : Scanner) : Bool :=
  s.cursor.column = 0 && s.cursor.index < s.marked
    && (s.cursor.index = 0 || s.cursor.seen ≤ s.marked)

/-- Passes white space and comments up to the next token, at most `n` lines. Tabs do not count as
white space where a key may start. -/
def skipWhite : (n : Nat) → Scanner → Scanner
  | 0, s => s
  | n + 1, s =>
    let s := if s.atMark then s.skip 1 else s
    let tabs := s.inFlow || !s.keyAllowed
    let c := s.cursor.skipWhile fun x => x == ' ' || (tabs && x == '\t')
    let c := if c.isAt '#' then skipComments c.left c else c
    if c.atBreak then
      skipWhite n { s with cursor := c.skipBreak, keyAllowed := s.keyAllowed || !s.inFlow }
    else { s with cursor := c }

/-- Passes a comment on the line of the last token. -/
def skipLineComment (s : Scanner) : Scanner :=
  let blanks := s.cursor.rest.takeWhile isBlank
  let c := s.cursor.skip blanks.length
  if s.cursor.breaks = 0 && blanks.length < 512 && c.isAt '#' then
    { s with cursor := c.skipWhile (!isBreak ·) }
  else s

/-- The end of the text: all blocks are closed. -/
def endStream? (s : Scanner) : Option Scanner := do
  let s ← (s.closeBlocks fun _ => true).dropKey?
  return { s with keyAllowed := false }.add .streamEnd

/-- A line that starts or ends a document. -/
def marker? (s : Scanner) (t : Token) : Option Scanner := do
  let s ← (s.closeBlocks fun _ => true).dropKey?
  return { s with keyAllowed := false }.skip 3 |>.add t

/-- A number of one or two digits in a directive, and what is left. -/
def versionNumber? (c : Cursor) : Option (Nat × Cursor) :=
  let digits := c.rest.takeWhile Char.isDigit
  if digits.isEmpty || 2 < digits.length then none
  else some (digits.foldl (fun n d => n * 10 + (d.toNat - 0x30)) 0, c.skip digits.length)

/-- The version of the format that a directive gives, and what is left. -/
def version? (c : Cursor) : Option (Token × Cursor) := do
  let (major, c) ← versionNumber? (c.skipWhile isBlank)
  if !c.isAt '.' then none
  else
    let (minor, c) ← versionNumber? (c.skip 1)
    return (.version major minor, c)

/-- The handle that a directive declares, with what it stands for, and what is left. -/
def tagHandle? (c : Cursor) : Option (Token × Cursor) := do
  let c := c.skipWhile isBlank
  let handle ← Tag.handle? c.rest
  let c := c.skip handle.length
  if !c.peek?.any isBlank then none
  else
    let c := c.skipWhile isBlank
    let (start, n) ← Tag.uri? c.rest
    let c := c.skip n
    if startsWhite c.rest then return (.tagHandle (bytesOf handle) start, c) else none

/-- A directive, which gives the version of the format or declares a handle. There are no others. -/
def directive? (s : Scanner) : Option Scanner := do
  let s ← (s.closeBlocks fun _ => true).dropKey?
  let c := s.cursor.skip 1
  let name := c.rest.takeWhile isNameChar
  let c := c.skip name.length
  if !startsWhite c.rest then none
  else
    let (t, c) ←
      if name == ['Y', 'A', 'M', 'L'] then version? c
      else if name == ['T', 'A', 'G'] then tagHandle? c
      else none
    let c := c.skipWhile isBlank
    let c := if c.isAt '#' then c.skipWhile (!isBreak ·) else c
    if !c.atLineEnd then none
    else
      let c := if c.atBreak then c.skipBreak else c
      return { s with cursor := c, keyAllowed := false }.add t

/-- An opening bracket or brace. -/
def openFlow? (s : Scanner) (t : Token) : Option Scanner := do
  let s ← s.noteKey?
  let s := { s with
    key := none
    opening := some s.count
    outerKeys := (s.key, s.opening) :: s.outerKeys
    keyAllowed := true }
  return s.skip 1 |>.add t

/-- A closing bracket or brace. If there was no possible key inside, what was opened is not held
back any longer. -/
def closeFlow? (s : Scanner) (t : Token) : Option Scanner := do
  let s ← s.dropKey?
  let s :=
    match s.outerKeys with
    | [] => s
    | (key, opening) :: outerKeys =>
      let release (k : SimpleKey) : SimpleKey :=
        { k with isHeld := k.isHeld && s.opening != some k.number }
      { s with key := key.map release, opening, outerKeys }
  return { s with keyAllowed := false }.skip 1 |>.add t

/-- A comma between the items of brackets. -/
def comma? (s : Scanner) : Option Scanner := do
  let s ← s.dropKey?
  return { s with keyAllowed := true }.skip 1 |>.add .comma

/-- The hyphen in front of an item of a sequence. -/
def entryMark? (s : Scanner) : Option Scanner := do
  if !s.inFlow && !s.keyAllowed then none
  else
    let s ← (s.openBlock s.cursor.column none .blockSequence).dropKey?
    return { s with keyAllowed := true }.skip 1 |>.add .entry

/-- The question mark in front of a key. -/
def keyMark? (s : Scanner) : Option Scanner := do
  if !s.inFlow && !s.keyAllowed then none
  else
    let s ← (s.openBlock s.cursor.column none .blockMapping).dropKey?
    return { s with keyAllowed := !s.inFlow }.skip 1 |>.add .key

/-- The colon between a key and its value. It comes too late for a key that has been given out. -/
def valueMark? (s : Scanner) : Option Scanner :=
  match s.key with
  | some k =>
    if s.isKey k then
      let isLate := k.number < s.given
      let s := if isLate then s.add .key else s.insert k.number .key
      let number := if isLate then none else some k.number
      let s := s.openBlock k.cursor.column number .blockMapping
      some ({ s with key := none, keyAllowed := false }.skip 1 |>.add .value)
    else if k.isRequired then none
    else bare
  | none => bare
where
  /-- A colon without a simple key. -/
  bare : Option Scanner :=
    if s.inFlow then some ({ s with keyAllowed := false }.skip 1 |>.add .value)
    else if !s.keyAllowed then none
    else
      some ({ s.openBlock s.cursor.column none .blockMapping with keyAllowed := true }.skip 1
        |>.add .value)

/-- An anchor or a reference to one. -/
def name? (s : Scanner) (make : List Char → Token) : Option Scanner := do
  let s ← s.noteKey?
  let name := (s.cursor.rest.drop 1).takeWhile isNameChar
  let s := { s with keyAllowed := false }.skip (1 + name.length)
  let isEnd (c : Char) : Bool :=
    isWhite c || "?:,]%@".toList.contains c || c.toNat == 0x7d || c.toNat == 0x60
  if name.isEmpty || !s.cursor.rest.head?.all isEnd then none else return s.add (make name)

/-- A tag. -/
def tag? (s : Scanner) : Option Scanner := do
  let s ← s.noteKey?
  let (t, n) ← Tag.read? s.cursor.rest
  let s := { s with keyAllowed := false }.skip n
  if startsWhite s.cursor.rest then return s.add (.tag t) else none

/-- Adds a scalar that started at `start`. -/
def addScalar (s : Scanner) (start : Cursor) (isPlain : Bool) (r : Reading) : Scanner :=
  { s with
    cursor := r.cursor
    keyAllowed := s.keyAllowed || r.isBroken }.add (.scalar start.line isPlain r.text)

/-- A plain scalar. -/
def plain? (s : Scanner) : Option Scanner := do
  let s ← s.noteKey?
  let indent := (s.indent?.map (· + 1)).getD 0
  let r ← plainText? indent s.inFlow s.cursor
  return { s with keyAllowed := false }.addScalar s.cursor true r

/-- A quoted scalar. -/
def quoted? (s : Scanner) (isSingle : Bool) : Option Scanner := do
  let s ← s.noteKey?
  let r ← quotedText? isSingle s.cursor
  return { s with keyAllowed := false }.addScalar s.cursor false r

/-- A block scalar. -/
def block? (s : Scanner) (isLiteral : Bool) : Option Scanner := do
  let s ← s.dropKey?
  let r ← blockText? isLiteral s.indent? s.cursor
  return { s with keyAllowed := true }.addScalar s.cursor false r

/-- Whether a plain scalar may start with a character that `rest` follows. -/
def startsPlain (inFlow : Bool) (c : Char) (rest : List Char) : Bool :=
  if c == '-' then !rest.head?.any isBlank
  else if c == '?' || c == ':' then !inFlow && !startsWhite rest
  else
    !(isWhite c || ",[]#&*!|>%@".toList.contains c || c == singleQuote || c == doubleQuote
      || c.toNat == 0x7b || c.toNat == 0x7d || c.toNat == 0x60)

/-- Cuts the token that starts with `c`, before `rest`. -/
def token? (s : Scanner) (c : Char) (rest : List Char) : Option Scanner :=
  if c == '[' then s.openFlow? .openBracket
  else if c.toNat == 0x7b then s.openFlow? .openBrace
  else if c == ']' then s.closeFlow? .closeBracket
  else if c.toNat == 0x7d then s.closeFlow? .closeBrace
  else if c == ',' then s.comma?
  else if c == '-' && startsWhite rest then s.entryMark?
  else if c == '?' && (s.inFlow || startsWhite rest) then s.keyMark?
  else if c == ':' && (s.inFlow || startsWhite rest) then s.valueMark?
  else if c == '*' then s.name? .reference
  else if c == '&' then s.name? .anchor
  else if c == '!' then s.tag?
  else if c == '|' && !s.inFlow then s.block? true
  else if c == '>' && !s.inFlow then s.block? false
  else if c == singleQuote then s.quoted? true
  else if c == doubleQuote then s.quoted? false
  else if startsPlain s.inFlow c rest then s.plain?
  else none

/-- How deep blocks and brackets may be nested. -/
def maxDepth : Nat := 10000

/-- Whether blocks or brackets are nested too deep. -/
def isTooDeep (s : Scanner) : Bool :=
  maxDepth < s.indents.length || maxDepth < s.outerKeys.length

/-- Cuts the token at the cursor, with the comment that follows it on its line. -/
def here? (s : Scanner) : Option Scanner :=
  match s.cursor.rest with
  | [] => s.endStream?
  | c :: rest =>
    if s.cursor.column = 0 && c == '%' then s.directive?
    else if s.cursor.atMarker '-' then s.marker? .documentStart
    else if s.cursor.atMarker '.' then s.marker? .documentEnd
    else
      (s.token? c rest).map fun s =>
        if s.tokens.head? == some .entry then s else s.skipLineComment

/-- Cuts one more token. Where the text goes wrong, there is no token so close to its end that the
end is looked at. -/
def next? (s : Scanner) : Option Scanner :=
  let s := skipWhite (s.cursor.left + 1) s
  let s := s.closeBlocks (s.cursor.column < ·)
  let s := { s with cursor := s.cursor.look Cursor.markerWidth }
  if s.isCut && (s.cursor.rest.drop 3).isEmpty then none
  else s.here?.filter fun next => !next.isTooDeep && !(s.isCut && next.cursor.rest.isEmpty)

end Scanner

/-- The tokens of a text, up to its end or to the first fault. -/
structure Tokens where
  list : List Token
  isComplete : Bool
  /-- The numbers of the tokens that were held back when the fault was met. -/
  heldKeys : List Nat := []

namespace Tokens

/-- Cuts at most `n` further tokens. -/
def goOn : (n : Nat) → Scanner → Tokens
  | 0, s => { list := s.tokens.reverse, isComplete := false }
  | n + 1, s =>
    if s.tokens.head? == some .streamEnd then { list := s.tokens.reverse, isComplete := true }
    else
      match s.next? with
      | some s => goOn n s
      | none => { list := s.tokens.reverse, isComplete := false, heldKeys := s.heldKeys }

/-- The tokens of a text. Each takes at least one character, apart from the last one. -/
def ofSource (source : Source) : Tokens :=
  let marked := if source.chars.head? == some byteOrderMark then source.first else 0
  goOn (source.chars.length + 2)
    { cursor := { rest := source.chars }, isCut := source.isCut, marked }

/-- The number of tokens, from the end of a document on, that have to be cut without a fault. -/
def lookahead : Nat := 3

/-- Whether all that is asked for could be cut by the time that so many tokens have been read. A
token that might be a key is not given out before that is settled. -/
def suffice (t : Tokens) (taken : Nat) : Bool :=
  t.isComplete || (taken + lookahead ≤ t.list.length && t.heldKeys.all (taken < ·))

end Tokens

end LineBasic.Document
