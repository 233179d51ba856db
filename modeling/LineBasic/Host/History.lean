import LineBasic.Host.LineReader
import LineBasic.Text.Character
import LineBasic.Text.Space

/-!
# History

A console remembers the lines that were typed, over several sessions, in a file with one line each.
A line that is white, or the same as the one before it, is not remembered again, and only the latest
thousand lines are kept.

## Main definitions

* `History` — the remembered lines
* `History.read`, `History.write` — the history of a file, and the file of a history
* `History.add` — remembers a line
-/

namespace LineBasic

/-- The remembered lines, latest first. -/
structure History where
  lines : List Bytes := []
deriving DecidableEq

namespace History

/-- The number of lines that are kept. -/
def limit : Nat := 1000

/-- Puts a line at the end; the oldest one gives way if there are too many. -/
def push (h : History) (line : Bytes) : History :=
  ⟨(line :: h.lines).take limit⟩

/-- Remembers a line that was typed. -/
def add (h : History) (line : Bytes) : History :=
  if Bytes.isWhite line || h.lines.head? == some line then h else h.push line

/-- Whether a line of a history file can be taken over. -/
def isReadable (line : Bytes) : Bool :=
  line.length < LineReader.pieceSize && Character.isValid line

/-- The history of a file. Reading ends at a line that is too long or holds bytes that belong to no
character. Blank and repeated lines of a file are taken over. -/
def read (text : Bytes) : History :=
  ((LineReader.markedLines text).takeWhile fun (l, _) => isReadable l).foldl
    (fun h (l, complete) => h.push (if complete then LineReader.dropReturn l else l)) {}

/-- The file of a history. -/
def write (h : History) : Bytes :=
  h.lines.reverse.flatMap (· ++ [0x0a])

end History

end LineBasic
