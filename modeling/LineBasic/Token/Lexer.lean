import LineBasic.Fault

/-!
# Reading a line

Blanks may stand anywhere inside a keyword, a name or an operator, and letter case does not matter:
`G O T O 10` is `GOTO10`. Keywords come first: a name ends as soon as a keyword could start, so that
`IFXTHENY` is `IF X THEN Y`. Number and string literals are read as they stand, a remark takes the
rest of the line, and `DATA` is followed by a list of fields.

A lexeme is read from its first byte and the bytes after it, and reports how many of those it takes.
The reader drops that many and goes on, so the rest of the line is always shorter.

## Main definitions

* `Lexer.keyword?` — the keyword that a text starts with
* `Lexer.lexeme` — the token that a text starts with
* `Lexeme` — a token and the bytes it was read from
* `Lexer.run` — the lexemes of a line
* `Token.read` — the tokens of a line
-/

namespace LineBasic

namespace Lexer

/-- The words that are recognised at every letter. -/
inductive Word where
  /-- A keyword that is a token by itself. -/
  | plain (k : Keyword)
  /-- `REM`, which takes the rest of the line. -/
  | rem
  /-- `DATA`, which takes a list of fields. -/
  | data
deriving DecidableEq

/-- The spelling of a word. -/
def Word.spelling : Word → Bytes
  | .plain k => k.spelling
  | .rem => utf8 "REM"
  | .data => utf8 "DATA"

/-- All words. None is the beginning of another, so at most one of them matches. -/
def words : List (Bytes × Word) :=
  (Keyword.all.map Word.plain ++ [Word.rem, Word.data]).map fun w => (w.spelling, w)

/-- The number of blanks that a text starts with. -/
def blanks (s : Bytes) : Nat :=
  (s.takeWhile Byte.isBlank).length

/-- How many bytes of `s` the letters of `w` take, when they are read one after the other with
blanks allowed before each. -/
def matchLetters : (w s : Bytes) → Option Nat
  | [], _ => some 0
  | a :: w, s =>
    match s.drop (blanks s) with
    | [] => none
    | c :: r => if Byte.upper c == a then (matchLetters w r).map (blanks s + 1 + ·) else none

/-- How many bytes after the first one the word `w` takes at the start of a text. -/
def matchWord : (w s : Bytes) → Option Nat
  | a :: w, c :: s => if Byte.upper c == a then matchLetters w s else none
  | _, _ => none

/-- The word that a text starts with, and how many bytes after the first one it takes. -/
def keyword? (s : Bytes) : Option (Word × Nat) :=
  words.findSome? fun (spelling, w) => (matchWord spelling s).map (w, ·)

/-- The rest of a name after its first letter: its further characters in upper case, and how many
bytes they take. Blanks are taken only in front of another character of the name. -/
def nameTail (s : Bytes) : Bytes × Nat :=
  match _h : s.drop (blanks s) with
  | [] => ([], 0)
  | c :: r =>
    if (keyword? (c :: r)).isSome then ([], 0)
    else if Byte.isLetter c || Byte.isDigit c then
      let (name, n) := nameTail r
      (Byte.upper c :: name, blanks s + 1 + n)
    else if c == Byte.dollar then ([c], blanks s + 1)
    else ([], 0)
termination_by s.length
decreasing_by
  have := congrArg List.length _h
  simp only [List.length_drop, List.length_cons] at this
  omega

/-- Whether a byte may stand in a number literal. -/
def isNumberByte (c : UInt8) : Bool :=
  Byte.isDigit c || c == 0x2e

/-- The mark that a byte is by itself. -/
def mark? (c : UInt8) : Option Mark :=
  match c with
  | 0x3a => some .colon
  | 0x2c => some .comma
  | 0x3b => some .semicolon
  | 0x28 => some .lparen
  | 0x29 => some .rparen
  | 0x2b => some .plus
  | 0x2d => some .minus
  | 0x2a => some .star
  | 0x2f => some .slash
  | 0x5e => some .caret
  | 0x3d => some .equal
  | 0x3c => some .less
  | 0x3e => some .greater
  | 0x3f => some .question
  | _ => none

/-- The operator of two characters that a mark and the next byte make. -/
def joined? : Mark → UInt8 → Option Mark
  | .less, 0x3d => some .lessEqual
  | .less, 0x3e => some .notEqual
  | .greater, 0x3d => some .greaterEqual
  | _, _ => none

/-- A mark that may be joined with a later byte, with blanks allowed between them. -/
def markTail (m : Mark) (s : Bytes) : Mark × Nat :=
  match s.drop (blanks s) with
  | [] => (m, 0)
  | c :: _ =>
    match joined? m c with
    | some m' => (m', blanks s + 1)
    | none => (m, 0)

/-- The token that the text `c :: s` starts with, and how many bytes of `s` it takes. A misspelling
comes with the number of bytes of `s` it concerns. -/
def lexeme (c : UInt8) (s : Bytes) : Except (Misspelling × Nat) (Token × Nat) :=
  match keyword? (c :: s) with
  | some (.plain k, n) => .ok (.keyword k, n)
  | some (.rem, n) => .ok (.remark (s.drop n), s.length)
  | some (.data, n) =>
    let (values, used) := Field.readAll (s.drop n)
    .ok (.data values, n + used)
  | none =>
    if Byte.isLetter c then
      let (name, n) := nameTail s
      .ok (.symbol (Byte.upper c :: name), n)
    else if isNumberByte c then
      let digits := s.takeWhile isNumberByte
      match Number.read? (c :: digits) with
      | some x => .ok (.number x, digits.length)
      | none => .error (.invalidNumber, digits.length)
    else if c == Byte.quote then
      let inner := s.takeWhile (· != Byte.quote)
      if inner.length = s.length then .error (.unterminatedString, s.length)
      else .ok (.string inner, inner.length + 1)
    else
      match mark? c with
      | some m =>
        let (m, n) := markTail m s
        .ok (.mark m, n)
      | none => .error (.unexpectedCharacter c, 0)

end Lexer

/-- A token and the bytes of the line it was read from. -/
structure Lexeme where
  token : Token
  span : Span
deriving DecidableEq

namespace Lexer

/-- The lexemes of the rest of a line, which starts at byte `start`. -/
def runFrom (start : Nat) : Bytes → Except Cause (List Lexeme)
  | [] => .ok []
  | c :: s =>
    if Byte.isBlank c then runFrom (start + 1) s
    else
      match lexeme c s with
      | .error (what, n) => .error (.misspelled what ⟨start, start + 1 + n⟩)
      | .ok (token, n) =>
        match runFrom (start + 1 + n) (s.drop n) with
        | .error e => .error e
        | .ok rest => .ok (⟨token, ⟨start, start + 1 + n⟩⟩ :: rest)
termination_by s => s.length
decreasing_by all_goals simp only [List.length_cons, List.length_drop]; omega

/-- The lexemes of a line. -/
def run (line : Bytes) : Except Cause (List Lexeme) :=
  runFrom 0 line

end Lexer

/-- The tokens of a line. -/
def Token.read (line : Bytes) : Except Cause (List Token) :=
  (Lexer.run line).map fun lexemes => lexemes.map Lexeme.token

end LineBasic
