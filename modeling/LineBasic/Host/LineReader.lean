import LineBasic.Text.Bytes

/-!
# Lines of input

Two readers cut a stream into lines. The *file reader* drops a carriage return at the end of each
line and refuses lines of more than 65535 bytes; what comes before such a line is read. The *console
reader* has no limit but hands over a long line in pieces of 4096 bytes, each as if it were a line.

## Main definitions

* `LineReader.fileLines` — the lines of the file reader, and whether it stopped at a long one
* `LineReader.consoleLines` — the lines of the console reader
-/

namespace LineBasic.LineReader

/-- The line feed. -/
def lineFeed : UInt8 := 0x0a

/-- The carriage return. -/
def carriageReturn : UInt8 := 0x0d

/-- The longest line of a file. -/
def maxLine : Nat := 65535

/-- The lines of a text, each without its line feed. A text that does not end in a line feed has a
last line without one. -/
def rawLines (s : Bytes) : List Bytes :=
  let parts := Bytes.splitOn lineFeed s
  if parts.getLast? == some [] then parts.dropLast else parts

/-- Drops a carriage return at the end of a line. -/
def dropReturn (s : Bytes) : Bytes :=
  if s.getLast? == some carriageReturn then s.dropLast else s

/-- The lines of a file up to the first one that is too long, and whether there is such a line. -/
def fileLines (s : Bytes) : List Bytes × Bool :=
  let ls := rawLines s
  let short := ls.takeWhile fun l => decide (l.length ≤ maxLine)
  (short.map dropReturn, short.length < ls.length)

/-- The size of the pieces in which the console reader hands over a long line. -/
def pieceSize : Nat := 4096

/-- The pieces of a line that a line feed follows if `complete`, in at most `pieces` steps. A
carriage return at the end of a full piece is kept for the next one; before the line feed it is
dropped. -/
def piecesOf (complete : Bool) : (pieces : Nat) → Bytes → List Bytes
  | 0, _ => []
  | pieces + 1, l =>
    if l.length < pieceSize then
      if complete then [dropReturn l] else if l.isEmpty then [] else [l]
    else
      let piece := l.take pieceSize
      if piece.getLast? == some carriageReturn then
        piece.dropLast :: piecesOf complete pieces (carriageReturn :: l.drop pieceSize)
      else piece :: piecesOf complete pieces (l.drop pieceSize)

/-- The lines of a text, each with whether a line feed follows it. -/
def markedLines (s : Bytes) : List (Bytes × Bool) :=
  let ls := rawLines s
  let ended := s.getLast? == some lineFeed
  ls.zipIdx.map fun (l, i) => (l, ended || i + 1 < ls.length)

/-- The lines that the console reader hands over. -/
def consoleLines (s : Bytes) : List Bytes :=
  (markedLines s).flatMap fun (l, complete) => piecesOf complete (l.length + 1) l

end LineBasic.LineReader
