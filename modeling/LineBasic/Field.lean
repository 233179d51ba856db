import LineBasic.Text.Space
import LineBasic.Value

/-!
# Fields of data

The text after `DATA` and the reply to an `INPUT` are lists of fields separated by commas. A list
ends at a colon outside quotes or at the end of the text, and it always has at least one field.

* A field that starts with a quote is the string up to the next quote; what stands between that
  quote and the separator is dropped. Without a second quote the rest of the text is the string,
  separators included.
* Any other field is trimmed of white space, and is a number if it is a numeral within range and a
  string otherwise.

## Main definitions

* `Field.readAll` — the values of a list of fields, and the number of bytes read
* `Field.write`, `Field.writeAll` — fields as they are listed
-/

namespace LineBasic.Field

/-- Whether a byte ends a field that is not quoted. -/
def isSeparator (c : UInt8) : Bool :=
  c == Byte.comma || c == Byte.colon

/-- The value of a field that is not quoted. -/
def ofText (s : Bytes) : Value :=
  let s := Bytes.trim s
  match Number.read? s with
  | some x => .num x
  | none => .str s

/-- Reads one field: its value, and the number of bytes up to the separator. -/
def read (s : Bytes) : Value × Nat :=
  let blanks := (s.takeWhile Byte.isBlank).length
  match s.drop blanks with
  | [] => (ofText [], blanks)
  | c :: r =>
    if c == Byte.quote then
      let inner := r.takeWhile (· != Byte.quote)
      if inner.length = r.length then (.str inner, s.length)
      else
        let junk := (r.drop (inner.length + 1)).takeWhile (!isSeparator ·)
        (.str inner, blanks + 1 + inner.length + 1 + junk.length)
    else
      let field := (c :: r).takeWhile (!isSeparator ·)
      (ofText field, blanks + field.length)

/-- Reads a list of fields: the values, and the number of bytes up to the colon or the end. -/
def readAll (s : Bytes) : List Value × Nat :=
  let (value, used) := read s
  match _h : s.drop used with
  | [] => ([value], used)
  | c :: r =>
    if c == Byte.comma then
      let (values, more) := readAll r
      (value :: values, used + 1 + more)
    else ([value], used)
termination_by s.length
decreasing_by
  have := congrArg List.length _h
  simp only [List.length_drop, List.length_cons] at this
  omega

/-- Whether a string has to be quoted to be read back from a list: it would be read as a number,
be cut at a separator, or lose white space. -/
def needsQuotes (s : Bytes) : Bool :=
  !s.isEmpty && ((Number.read? s).isSome || s.any isSeparator || Bytes.trim s != s)

/-- A value as it is listed. -/
def write : Value → Bytes
  | .num x => Number.write x
  | .str s => if needsQuotes s then [Byte.quote] ++ s ++ [Byte.quote] else s

/-- Values as they are listed after `DATA`. -/
def writeAll (values : List Value) : Bytes :=
  List.intercalate [Byte.comma] (values.map write)

end LineBasic.Field
