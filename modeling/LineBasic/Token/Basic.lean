import LineBasic.Field

/-!
# Tokens

A line is stored as tokens. Keywords and marks say all by themselves; names, literals, remarks and
data carry a payload.

## Main definitions

* `Keyword`, `Mark` — the fixed tokens
* `Token` — one token of a line
* `Token.Kind` — what messages say of a token
* `Token.same` — equality as the language sees it
* `Token.listing` — a token as it is listed
-/

namespace LineBasic

/-- The keywords that stand for themselves. -/
inductive Keyword where
  | DIM | LET | PRINT | INPUT | GOTO | GOSUB | RETURN | IF | THEN | ELSE | AND | OR | NOT | END
  | STOP | FOR | TO | STEP | NEXT | READ | RESTORE | DEF
deriving DecidableEq

/-- The keywords in their customary order. -/
def Keyword.all : List Keyword :=
  [.DIM, .LET, .PRINT, .INPUT, .GOTO, .GOSUB, .RETURN, .IF, .THEN, .ELSE, .AND, .OR, .NOT, .END,
   .STOP, .FOR, .TO, .STEP, .NEXT, .READ, .RESTORE, .DEF]

/-- The spelling of a keyword. -/
def Keyword.spelling : Keyword → Bytes
  | .DIM => utf8 "DIM"
  | .LET => utf8 "LET"
  | .PRINT => utf8 "PRINT"
  | .INPUT => utf8 "INPUT"
  | .GOTO => utf8 "GOTO"
  | .GOSUB => utf8 "GOSUB"
  | .RETURN => utf8 "RETURN"
  | .IF => utf8 "IF"
  | .THEN => utf8 "THEN"
  | .ELSE => utf8 "ELSE"
  | .AND => utf8 "AND"
  | .OR => utf8 "OR"
  | .NOT => utf8 "NOT"
  | .END => utf8 "END"
  | .STOP => utf8 "STOP"
  | .FOR => utf8 "FOR"
  | .TO => utf8 "TO"
  | .STEP => utf8 "STEP"
  | .NEXT => utf8 "NEXT"
  | .READ => utf8 "READ"
  | .RESTORE => utf8 "RESTORE"
  | .DEF => utf8 "DEF"

/-- Punctuation and operators. -/
inductive Mark where
  | colon | comma | semicolon | lparen | rparen | plus | minus | star | slash | caret
  | equal | less | greater | lessEqual | greaterEqual | notEqual | question
deriving DecidableEq

/-- The marks in their customary order. -/
def Mark.all : List Mark :=
  [.colon, .comma, .semicolon, .lparen, .rparen, .plus, .minus, .star, .slash, .caret,
   .equal, .less, .greater, .lessEqual, .greaterEqual, .notEqual, .question]

/-- The spelling of a mark. -/
def Mark.spelling : Mark → Bytes
  | .colon => utf8 ":"
  | .comma => utf8 ","
  | .semicolon => utf8 ";"
  | .lparen => utf8 "("
  | .rparen => utf8 ")"
  | .plus => utf8 "+"
  | .minus => utf8 "-"
  | .star => utf8 "*"
  | .slash => utf8 "/"
  | .caret => utf8 "^"
  | .equal => utf8 "="
  | .less => utf8 "<"
  | .greater => utf8 ">"
  | .lessEqual => utf8 "<="
  | .greaterEqual => utf8 ">="
  | .notEqual => utf8 "<>"
  | .question => utf8 "?"

/-- One token of a line. -/
inductive Token where
  /-- A keyword. -/
  | keyword (k : Keyword)
  /-- A mark. -/
  | mark (m : Mark)
  /-- The name of a variable, an array or a function. -/
  | symbol (name : Name)
  /-- A string literal, without its quotes. -/
  | string (s : Bytes)
  /-- A number literal. -/
  | number (x : Float)
  /-- A remark: everything after `REM`. -/
  | remark (s : Bytes)
  /-- The fields after `DATA`. -/
  | data (values : List Value)
deriving DecidableEq

namespace Token

/-- What a message tells about a token: the token itself without its payload. -/
inductive Kind where
  | keyword (k : Keyword)
  | mark (m : Mark)
  | symbol
  | string
  | number
  | remark
  | data
deriving DecidableEq

/-- The name of a kind, as messages show it. -/
def Kind.name : Kind → Bytes
  | .keyword k => k.spelling
  | .mark m => m.spelling
  | .symbol => utf8 "SYMBOL"
  | .string => utf8 "STRING"
  | .number => utf8 "NUMBER"
  | .remark => utf8 "REM"
  | .data => utf8 "DATA"

/-- The kinds in their customary order. -/
def Kind.all : List Kind :=
  Keyword.all.map .keyword ++ Mark.all.map .mark ++ [.symbol, .string, .number, .remark, .data]

/-- The kind of a token. -/
def kind : Token → Kind
  | .keyword k => .keyword k
  | .mark m => .mark m
  | .symbol _ => .symbol
  | .string _ => .string
  | .number _ => .number
  | .remark _ => .remark
  | .data _ => .data

/-- Whether two tokens say the same; numbers are compared as numbers. -/
def same : Token → Token → Bool
  | .number x, .number y => x == y
  | .data vs, .data ws => vs.length == ws.length && (vs.zip ws).all fun (v, w) => v.same w
  | .number _, _ | _, .number _ | .data _, _ | _, .data _ => false
  | s, t => s == t

/-- A token as it is listed. -/
def listing : Token → Bytes
  | .keyword k => k.spelling
  | .mark m => m.spelling
  | .symbol name => name
  | .string s => [Byte.quote] ++ s ++ [Byte.quote]
  | .number x => Number.write x
  | .remark s => utf8 "REM" ++ s
  | .data values => utf8 "DATA " ++ Field.writeAll values

/-- Whether a token ends the statement in front of it. -/
def endsStatement : Token → Bool
  | .mark .colon | .keyword .ELSE => true
  | _ => false

end Token

end LineBasic
