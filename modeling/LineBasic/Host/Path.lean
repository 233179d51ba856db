import LineBasic.Text.Bytes

/-!
# Paths and program names

A path is a text of parts separated by slashes. The name of a program file may be given without its
suffix; a suffix other than `.bas`, or more than one, is refused.

## Main definitions

* `Path.join` — a name inside a directory, in its shortest form
* `Path.suffix?` — the suffix of a file name
* `Path.programName?` — the file that holds a program
-/

namespace LineBasic.Path

/-- The slash. -/
def slash : UInt8 := 0x2f

/-- The full stop. -/
def dot : UInt8 := 0x2e

/-- The parts of a path. -/
def parts (path : Bytes) : List Bytes :=
  Bytes.splitOn slash path

/-- Adds a part to parts that are listed last first: a part that says nothing is left out, and one
that goes up takes the part before it away. -/
def addPart (rooted : Bool) (before : List Bytes) (part : Bytes) : List Bytes :=
  if part.isEmpty || part == [dot] then before
  else if part == [dot, dot] then
    match before with
    | [] => if rooted then [] else [part]
    | p :: rest => if p == [dot, dot] then part :: before else rest
  else part :: before

/-- The shortest path that is the same. -/
def clean (path : Bytes) : Bytes :=
  let rooted := path.head? == some slash
  let body := List.intercalate [slash] ((parts path).foldl (addPart rooted) []).reverse
  if rooted then slash :: body else if body.isEmpty then [dot] else body

/-- The path of a name in a directory. -/
def join (directory name : Bytes) : Bytes :=
  clean (directory ++ slash :: name)

/-- The last part of a path. -/
def lastPart (path : Bytes) : Bytes :=
  ((parts path).getLast?).getD []

/-- The suffix of a file name, with its full stop, or nothing if there is no full stop in the last
part; `none` if there are several. -/
def suffix? (path : Bytes) : Option Bytes :=
  match Bytes.splitOn dot (lastPart path) with
  | [_] => some []
  | [_, s] => some (dot :: s)
  | _ => none

/-- The suffix of program files. -/
def programSuffix : Bytes := utf8 ".bas"

/-- The file that holds a program, given its name with or without the suffix. -/
def programName? (name : Bytes) : Option Bytes :=
  match suffix? name with
  | none => none
  | some s =>
    if s.isEmpty then some (name ++ programSuffix)
    else if s == programSuffix then some name
    else none

end LineBasic.Path
