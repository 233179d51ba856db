import LineBasic.Line
import LineBasic.Text.Quoted
import LineBasic.Token.Basic

/-!
# Faults

A fault is what stops a line or a program with a message. Its cause says what went wrong; causes are
grouped into kinds, which are what a message opens with, and some kinds carry a detail that is shown
in parentheses. The line is added when the fault leaves the statement.

## Main definitions

* `Fault.Kind`, `Fault.Detail` — the groups of causes and their refinements
* `Cause` — what went wrong
* `Fault` — a cause and the line it happened on
* `Fault.text` — the message of a fault
-/

namespace LineBasic

namespace Fault

/-- The kinds of faults. -/
inductive Kind where
  | syntaxError
  | typeMismatch
  | dataTypeMismatch
  | undefinedStatement
  | outOfMemory
  | outOfData
  | returnWithoutGosub
  | nextWithoutFor
  | badSubscript
  | illegalQuantity
  | unimplemented
  | divisionByZero
  | redimensionedArray
  | cannotContinue
  | illegalDirect
  | internal
deriving DecidableEq

namespace Kind

/-- What a message of this kind opens with. -/
def text : Kind → Bytes
  | .syntaxError => utf8 "SYNTAX ERROR"
  | .typeMismatch => utf8 "TYPE MISMATCH"
  | .dataTypeMismatch => utf8 "DATA TYPE MISMATCH"
  | .undefinedStatement => utf8 "UNDEF'D STATEMENT"
  | .outOfMemory => utf8 "OUT OF MEMORY"
  | .outOfData => utf8 "OUT OF DATA"
  | .returnWithoutGosub => utf8 "RETURN WITHOUT GOSUB"
  | .nextWithoutFor => utf8 "NEXT WITHOUT FOR"
  | .badSubscript => utf8 "BAD SUBSCRIPT"
  | .illegalQuantity => utf8 "ILLEGAL QUANTITY"
  | .unimplemented => utf8 "UNIMPLEMENTED"
  | .divisionByZero => utf8 "DIVISION BY ZERO"
  | .redimensionedArray => utf8 "REDIM'D ARRAY"
  | .cannotContinue => utf8 "CAN'T CONTINUE"
  | .illegalDirect => utf8 "ILLEGAL DIRECT"
  | .internal => utf8 "INTERNAL ERROR"

/-- The kinds in their customary order. -/
def all : List Kind :=
  [.syntaxError, .typeMismatch, .dataTypeMismatch, .undefinedStatement, .outOfMemory, .outOfData,
   .returnWithoutGosub, .nextWithoutFor, .badSubscript, .illegalQuantity, .unimplemented,
   .divisionByZero, .redimensionedArray, .cannotContinue, .illegalDirect, .internal]

end Kind

/-- The refinements of syntax errors and of lack of memory. -/
inductive Detail where
  | tokenization
  | unexpectedToken
  | expectedToken
  | unexpectedEndOfInput
  | stackOverflow
  | arrayTooLarge
deriving DecidableEq

namespace Detail

/-- The name of a detail. -/
def name : Detail → Bytes
  | .tokenization => utf8 "Tokenization"
  | .unexpectedToken => utf8 "UnexpectedToken"
  | .expectedToken => utf8 "ExpectedToken"
  | .unexpectedEndOfInput => utf8 "UnexpectedEndOfInput"
  | .stackOverflow => utf8 "StackOverflow"
  | .arrayTooLarge => utf8 "ArrayTooLarge"

/-- The details in their customary order. -/
def all : List Detail :=
  [.tokenization, .unexpectedToken, .expectedToken, .unexpectedEndOfInput, .stackOverflow,
   .arrayTooLarge]

/-- What stands in parentheses after a message, given the fault's own message and the name of the
token it is about. Without a detail the message is shown if there is one. -/
def remark (detail : Option Detail) (message token : Bytes) : Option Bytes :=
  match detail with
  | none => if message.isEmpty then none else some message
  | some .tokenization => some message
  | some .unexpectedToken => some (utf8 "UNEXPECTED " ++ token)
  | some .expectedToken => some (utf8 "EXPECTED " ++ token)
  | some .unexpectedEndOfInput => some (utf8 "UNEXPECTED END OF INPUT")
  | some .stackOverflow => some (utf8 "STACK OVERFLOW")
  | some .arrayTooLarge => some (utf8 "ARRAY TOO LARGE")

end Detail

/-- A message: its headline, the remark in parentheses if any, and the line if it has a number. -/
def compose (headline : Bytes) (remark : Option Bytes) (line : Line) : Bytes :=
  headline
    ++ (match remark with
      | some r => utf8 " (" ++ r ++ utf8 ")"
      | none => [])
    ++ line.suffix

end Fault

/-- A half-open range of bytes in a line. -/
structure Span where
  start : Nat
  stop : Nat
deriving DecidableEq

/-- What cannot be read as a token. -/
inductive Misspelling where
  /-- A byte that starts no token. -/
  | unexpectedCharacter (c : UInt8)
  /-- Digits and points that are no number, or a number out of range. -/
  | invalidNumber
  /-- A string without its closing quote. -/
  | unterminatedString
deriving DecidableEq

/-- The message of a misspelling; a byte is shown as the character of that code. -/
def Misspelling.text : Misspelling → Bytes
  | .unexpectedCharacter c =>
    utf8 "UNEXPECTED CHARACTER " ++ Quoted.write (String.utf8EncodeChar (Char.ofNat c.toNat))
  | .invalidNumber => utf8 "INVALID NUMBER"
  | .unterminatedString => utf8 "UNTERMINATED STRING"

/-- Internal faults, which no program can cause. -/
inductive Inconsistency where
  /-- A function returns, but the innermost frame is not a function's. -/
  | functionFrameMissing
  /-- A function returns to a line that is no longer stored. -/
  | callerLineVanished
  /-- An `INPUT` statement has no `INPUT` keyword. -/
  | inputTokenNotFound
  /-- An element beyond the end of a list is used. -/
  | indexOutOfRange (index length : Nat)
  /-- Bytes that a string does not have are cut out of it. -/
  | sliceOutOfRange (low : Int) (high length : Nat)
deriving DecidableEq

namespace Inconsistency

/-- The part of a string that cannot be cut out. The upper bound is looked at first. -/
def sliceText (low : Int) (high length : Nat) : Bytes :=
  if length < high then
    utf8 "[:" ++ Bytes.decimal high ++ utf8 "] with length " ++ Bytes.decimal length
  else if low < 0 then utf8 "[-" ++ Bytes.decimal low.natAbs ++ utf8 ":]"
  else utf8 "[" ++ Bytes.decimal low.toNat ++ utf8 ":" ++ Bytes.decimal high ++ utf8 "]"

/-- The message of an internal fault. -/
def text : Inconsistency → Bytes
  | .functionFrameMissing => utf8 "function frame missing"
  | .callerLineVanished => utf8 "caller line vanished"
  | .inputTokenNotFound => utf8 "INPUT token not found on line"
  | .indexOutOfRange index length =>
    utf8 "runtime error: index out of range [" ++ Bytes.decimal index ++ utf8 "] with length " ++
      Bytes.decimal length
  | .sliceOutOfRange low high length =>
    utf8 "runtime error: slice bounds out of range " ++ sliceText low high length

end Inconsistency

/-- What went wrong. -/
inductive Cause where
  /-- Part of a line is no token. -/
  | misspelled (what : Misspelling) (span : Span)
  /-- A token where it cannot stand; `none` when the arguments of a function are too few or too
  many, which no single token tells. -/
  | unexpected (kind : Option Token.Kind)
  /-- Another token is needed here. -/
  | expected (kind : Token.Kind)
  /-- The line ends too early. -/
  | endOfInput
  | typeMismatch
  /-- A field of data is a string where a number is read; the fault is the data line's. -/
  | dataTypeMismatch (line : Nat)
  | undefinedStatement
  | stackOverflow
  | arrayTooLarge
  | outOfData
  | returnWithoutGosub
  | nextWithoutFor
  | badSubscript
  | illegalQuantity
  | unimplemented
  | divisionByZero
  | redimensionedArray
  | cannotContinue
  | illegalDirect
  | internal (what : Inconsistency)
deriving DecidableEq

namespace Cause

/-- The kind of a cause. -/
def kind : Cause → Fault.Kind
  | .misspelled .. | .unexpected _ | .expected _ | .endOfInput => .syntaxError
  | .typeMismatch => .typeMismatch
  | .dataTypeMismatch _ => .dataTypeMismatch
  | .undefinedStatement => .undefinedStatement
  | .stackOverflow | .arrayTooLarge => .outOfMemory
  | .outOfData => .outOfData
  | .returnWithoutGosub => .returnWithoutGosub
  | .nextWithoutFor => .nextWithoutFor
  | .badSubscript => .badSubscript
  | .illegalQuantity => .illegalQuantity
  | .unimplemented => .unimplemented
  | .divisionByZero => .divisionByZero
  | .redimensionedArray => .redimensionedArray
  | .cannotContinue => .cannotContinue
  | .illegalDirect => .illegalDirect
  | .internal _ => .internal

/-- The detail of a cause. -/
def detail : Cause → Option Fault.Detail
  | .misspelled .. => some .tokenization
  | .unexpected _ => some .unexpectedToken
  | .expected _ => some .expectedToken
  | .endOfInput => some .unexpectedEndOfInput
  | .stackOverflow => some .stackOverflow
  | .arrayTooLarge => some .arrayTooLarge
  | _ => none

/-- The message that a cause brings along. -/
def message : Cause → Bytes
  | .misspelled what _ => what.text
  | .internal what => what.text
  | _ => []

/-- The name of the token that a cause is about. -/
def token : Cause → Bytes
  | .unexpected (some k) | .expected k => k.name
  | _ => utf8 "TokenKind(0)"

/-- The line that a cause names by itself. -/
def ownLine : Cause → Option Nat
  | .dataTypeMismatch n => some n
  | _ => none

/-- The text of a cause on a given line. -/
def text (cause : Cause) (line : Line) : Bytes :=
  Fault.compose cause.kind.text (Fault.Detail.remark cause.detail cause.message cause.token) line

end Cause

/-- A cause, and the line it is reported for. -/
structure Fault where
  cause : Cause
  line : Line
deriving DecidableEq

/-- The fault of a statement that starts on `line`: the cause's own line wins. -/
def Cause.at (cause : Cause) (line : Line) : Fault :=
  ⟨cause, match cause.ownLine with
    | some n => .numbered n
    | none => line⟩

/-- The message of a fault. -/
def Fault.text (f : Fault) : Bytes :=
  f.cause.text f.line

end LineBasic
