import LineBasic.Host.Document.Moment
import LineBasic.Host.Document.Tag
import LineBasic.Number.Integer
import LineBasic.Number.Integral
import LineBasic.Number.Numeral
import LineBasic.Text.Base64

/-!
# Meanings of scalars

A scalar without quotes may mean nothing, a truth value, a number or a point in time; otherwise it
is a text. Quotes make it a text, and a tag may insist on a meaning.

## Main definitions

* `Document.Meaning` — what a scalar means
* `Document.Scalar` — a scalar with its tag
* `Document.Scalar.meaning?` — what it means, if the tag allows for it
* `Document.Meaning.integer?`, `Document.Meaning.truth?` — the value, where a type is asked for
-/

namespace LineBasic.Document

/-- What a scalar means. -/
inductive Meaning where
  | nothing
  | truth (b : Bool)
  | integer (i : Int)
  | real (x : Float)
  /-- A point in time, as it is written. -/
  | moment (s : Bytes)
  | text (s : Bytes)
deriving DecidableEq

namespace Meaning

/-- The words that mean something by themselves. -/
def words : List (Bytes × Meaning) :=
  let all (m : Meaning) (words : List String) : List (Bytes × Meaning) :=
    words.map fun word => (utf8 word, m)
  all .nothing ["", "~", "null", "Null", "NULL"]
    ++ all (.truth true) ["true", "True", "TRUE"]
    ++ all (.truth false) ["false", "False", "FALSE"]
    ++ all (.real (0 / 0)) [".nan", ".NaN", ".NAN"]
    ++ all (.real (1 / 0)) [".inf", ".Inf", ".INF", "+.inf", "+.Inf", "+.INF"]
    ++ all (.real (-1 / 0)) ["-.inf", "-.Inf", "-.INF"]

/-- The integer after a prefix that names its base; the sign may stand before the prefix or after
it. -/
def prefixed? (base : Nat) (letter : UInt8) (s : Bytes) : Option Int :=
  let digits? (s : Bytes) (sign : Int) : Option Int :=
    if s.isEmpty then none
    else
      match Integer.readDigits base false 0 s with
      | .ok n => some (sign * n)
      | .error _ => none
  match s with
  | 0x2d :: 0x30 :: c :: rest => if c == letter then digits? rest (-1) else none
  | 0x30 :: c :: 0x2d :: rest => if c == letter then digits? rest (-1) else none
  | 0x30 :: c :: 0x2b :: rest => if c == letter then digits? rest 1 else none
  | 0x30 :: c :: rest => if c == letter then digits? rest 1 else none
  | _ => none

/-- The number that a text is which starts with a digit or a sign. Underscores count for nothing. An
integer may be larger than a word, as long as it is written without a sign and fits into 64 bits;
beyond that it is a real number. -/
def number? (s : Bytes) : Option Meaning :=
  let s := s.filter (· != Integer.underscore)
  match Integer.read true s with
  | .ok i => some (.integer i)
  | .error _ =>
    match Integer.readUnsigned s with
    | .ok n => some (.integer n)
    | .error _ =>
      match Number.read? s with
      | some x => some (.real x)
      | none => ((prefixed? 2 0x62 s).orElse fun _ => prefixed? 8 0x6f s).map .integer

/-- Whether each underscore of `s` stands between two digits; the flag says whether a digit is in
front of `s`. -/
def separatesDigits : (afterDigit : Bool) → Bytes → Bool
  | _, [] => true
  | afterDigit, c :: s =>
    if c == Integer.underscore then
      afterDigit && s.head?.any Byte.isDigit && separatesDigits false s
    else separatesDigits (Byte.isDigit c) s

/-- The number that a text is which starts with a point. Underscores may separate digits. -/
def fraction? (s : Bytes) : Option Meaning :=
  if separatesDigits false s then
    (Number.read? (s.filter (· != Integer.underscore))).map .real
  else none

/-- What a text means by itself. -/
def ofText (s : Bytes) : Meaning :=
  match words.lookup s with
  | some m => m
  | none =>
    let number :=
      match s with
      | [] => none
      | c :: _ =>
        if c == 0x2e then fraction? s
        else if Moment.isWritten s then some (.moment s)
        else if Byte.isDigit c || c == 0x2b || c == 0x2d then number? s
        else none
    number.getD (.text s)

/-- The tag of a meaning. -/
def tag : Meaning → Bytes
  | .nothing => Tag.null
  | .truth _ => Tag.bool
  | .integer _ => Tag.int
  | .real _ => Tag.float
  | .moment _ => Tag.timestamp
  | .text _ => Tag.str

/-- The integer part of a number, if it is not above all 64-bit integers; what lies below them
counts as the least of them. -/
def truncate? (x : Float) : Option Int :=
  let least : Int := -Integer.bound
  if x ≤ Number.ofInt Integer.bound then
    let i := if x < 0 then (Number.floor? (-x)).map (-·) else Number.floor? x
    match i with
    | some i => some (if Integer.isWord i then i else least)
    | none => some least
  else none

/-- The value where an integer is asked for. A number with a fraction is cut off at its point. -/
def integer? : Meaning → Option Int
  | .integer i => if Integer.isWord i then some i else none
  | .real x => truncate? x
  | _ => none

/-- The value where a truth value is asked for. There are more words for it than in general. -/
def truth? : Meaning → Option Bool
  | .truth b => some b
  | .text s =>
    if ["y", "Y", "yes", "Yes", "YES", "on", "On", "ON"].any (utf8 · == s) then some true
    else if ["n", "N", "no", "No", "NO", "off", "Off", "OFF"].any (utf8 · == s) then some false
    else none
  | _ => none

end Meaning

/-- A scalar as it is written. -/
structure Scalar where
  /-- Whether it has no quotes and is no block. -/
  isPlain : Bool
  /-- The tag in front of it. -/
  tag : Option Bytes := none
  text : Bytes
deriving DecidableEq

/-- The tags that insist on a meaning. -/
def Scalar.strictTags : List Bytes :=
  [Tag.null, Tag.bool, Tag.int, Tag.float, Tag.timestamp]

/-- What a scalar means; `none` if its tag insists on something else. An integer may be tagged as a
real number. A tag without a meaning of its own makes the scalar a text. -/
def Scalar.meaning? (s : Scalar) : Option Meaning :=
  match s.tag with
  | none => some (if s.isPlain then .ofText s.text else .text s.text)
  | some tag =>
    if tag == Tag.binary then (Base64.decode? s.text).map .text
    else if !strictTags.contains tag then some (.text s.text)
    else
      let m := Meaning.ofText s.text
      if m.tag == tag then some m
      else if tag == Tag.float then
        match m with
        | .integer i => if Integer.isWord i then some (.real (Number.ofInt i)) else none
        | _ => none
      else none

end LineBasic.Document
