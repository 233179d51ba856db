import LineBasic.Host.Document.Cursor

/-!
# Texts of scalars

A scalar may go on over several lines. Where it does, a line break and the white space around it are
*folded*: one break counts as a blank, and of several breaks all but the first are kept. Three kinds
of scalars are read here:

* *plain* ones, which end where a key or a comment could start, or where the indentation ends;
* *quoted* ones, between two single or two double quotes; inside single quotes a quote is doubled,
  inside double quotes a backslash escapes;
* *blocks*, which are lines of a deeper indentation, folded or taken as they stand.

## Main definitions

* `Document.Gap` — the white space between two parts of a scalar
* `Document.plainText?`, `Document.quotedText?`, `Document.blockText?` — the texts of scalars
-/

namespace LineBasic.Document

/-- The white space between two parts of a scalar. -/
structure Gap where
  /-- The blanks, last one first, if there is no line break. -/
  blanks : List Char := []
  /-- Whether there is a line break. -/
  isBroken : Bool := false
  /-- What the first line break reads as, unless it does not count. -/
  first : Option Char := none
  /-- What the other line breaks read as, last one first. -/
  others : List Char := []
  /-- Whether a tab stands where a line has to be indented. -/
  hasTab : Bool := false

namespace Gap

/-- The text that a gap counts as. -/
def text (g : Gap) : List Char :=
  if g.isBroken then
    match g.first with
    | some '\n' => if g.others.isEmpty then [' '] else g.others.reverse
    | some c => c :: g.others.reverse
    | none => g.others.reverse
  else g.blanks.reverse

/-- Goes on with a gap in lines that have to be indented by `indent`, for at most `n` characters. -/
def goOn (indent : Nat) : (n : Nat) → Gap → Cursor → Gap × Cursor
  | 0, g, c => (g, c)
  | n + 1, g, c =>
    match c.peek? with
    | none => (g, c)
    | some x =>
      if isBlank x then
        let g :=
          if g.isBroken then { g with hasTab := g.hasTab || (x == '\t' && c.column < indent) }
          else { g with blanks := x :: g.blanks }
        goOn indent n g (c.skip 1)
      else if isBreak x then
        let g :=
          if g.isBroken then { g with others := c.breakChar :: g.others }
          else { g with blanks := [], isBroken := true, first := some c.breakChar }
        goOn indent n g c.skipBreak
      else (g, c)

/-- Goes on with a gap to its end. -/
def complete (indent : Nat) (g : Gap) (c : Cursor) : Gap × Cursor :=
  goOn indent c.left g c

end Gap

/-- Whether a character ends a plain scalar inside brackets. -/
def isFlowMark (c : Char) : Bool :=
  c == ',' || c == '?' || c == '[' || c == ']' || c.toNat == 0x7b || c.toNat == 0x7d

/-- The part of a plain scalar that a text starts with: up to white space, a colon before white
space, or, inside brackets, a mark. -/
def plainPart (inFlow : Bool) : List Char → List Char
  | [] => []
  | c :: s =>
    if isWhite c || (c == ':' && startsWhite s) || (inFlow && isFlowMark c) then []
    else c :: plainPart inFlow s

/-- What is read of a scalar: its text, whether a line break follows it, and what is left. -/
structure Reading where
  text : List Char
  isBroken : Bool := false
  cursor : Cursor

/-- Goes on with a plain scalar after its `text`, which comes last part first, and a gap, for at
most `n` parts. -/
def plainFrom? (indent : Nat) (inFlow : Bool) :
    (n : Nat) → (text : List (List Char)) → Gap → Cursor → Option Reading
  | 0, text, g, c => some ⟨text.reverse.flatten, g.isBroken, c⟩
  | n + 1, text, g, c =>
    let c := c.look Cursor.markerWidth
    if c.atAnyMarker || c.isAt '#' then some ⟨text.reverse.flatten, g.isBroken, c⟩
    else
      let part := plainPart inFlow c.rest
      let (text, g) := if part.isEmpty then (text, g) else (part :: g.text :: text, {})
      let c := c.skip part.length
      if !c.peek?.any isWhite then some ⟨text.reverse.flatten, g.isBroken, c⟩
      else
        let (g, c) := g.complete indent c
        if g.hasTab then none
        else if !inFlow && c.column < indent then some ⟨text.reverse.flatten, g.isBroken, c⟩
        else plainFrom? indent inFlow n text g c

/-- The plain scalar at the cursor. Outside brackets its further lines are indented by at least
`indent`. -/
def plainText? (indent : Nat) (inFlow : Bool) (c : Cursor) : Option Reading :=
  plainFrom? indent inFlow c.left [] {} c

/-- The single quote. -/
def singleQuote : Char := Char.ofNat 0x27

/-- The double quote. -/
def doubleQuote : Char := Char.ofNat 0x22

/-- The backslash. -/
def backslash : Char := Char.ofNat 0x5c

/-- The character that an escape of one letter stands for. -/
def escape? (c : Char) : Option Char :=
  match c with
  | '0' => some (Char.ofNat 0x00)
  | 'a' => some (Char.ofNat 0x07)
  | 'b' => some (Char.ofNat 0x08)
  | 't' | '\t' => some '\t'
  | 'n' => some '\n'
  | 'v' => some (Char.ofNat 0x0b)
  | 'f' => some (Char.ofNat 0x0c)
  | 'r' => some '\r'
  | 'e' => some (Char.ofNat 0x1b)
  | ' ' => some ' '
  | 'N' => some (Char.ofNat 0x85)
  | '_' => some (Char.ofNat 0xa0)
  | 'L' => some (Char.ofNat 0x2028)
  | 'P' => some (Char.ofNat 0x2029)
  | c => if c == doubleQuote || c == singleQuote || c == backslash then some c else none

/-- The number of digits of an escape that gives the code of a character. -/
def codeWidth? (c : Char) : Option Nat :=
  match c with
  | 'x' => some 2
  | 'u' => some 4
  | 'U' => some 8
  | _ => none

/-- The character of a code in so many hexadecimal digits. -/
def coded? (width : Nat) (s : List Char) : Option Char := do
  let digits ← (s.take width).mapM hexDigit?
  let n := digits.foldl (fun n d => n * 16 + d) 0
  if digits.length < width || 0x10ffff < n || (0xd800 ≤ n && n ≤ 0xdfff) then none
  else some (Char.ofNat n)

/-- A part of a quoted scalar without white space: its text, the number of characters it takes, and
whether a line break that does not count follows it. -/
structure QuotedPart where
  text : List Char := []
  width : Nat := 0
  isJoined : Bool := false

/-- Puts a character that takes `width` characters in front of a part. -/
def QuotedPart.cons (c : Char) (width : Nat) (p : QuotedPart) : QuotedPart :=
  { p with text := c :: p.text, width := width + p.width }

/-- The part of a scalar between single quotes that a text starts with. -/
def singlePart : List Char → QuotedPart
  | [] => {}
  | [c] => if isWhite c || c == singleQuote then {} else .cons c 1 {}
  | c :: d :: s =>
    if isWhite c then {}
    else if c != singleQuote then .cons c 1 (singlePart (d :: s))
    else if d == singleQuote then .cons c 2 (singlePart s)
    else {}

/-- The part of a scalar between double quotes that a text starts with; `none` if an escape in it is
unknown. -/
def doublePart? : List Char → Option QuotedPart
  | [] => some {}
  | c :: s =>
    if isWhite c || c == doubleQuote then some {}
    else if c != backslash then (doublePart? s).map (.cons c 1)
    else
      match s with
      | [] => none
      | d :: s =>
        if isBreak d then some { width := 1, isJoined := true }
        else
          match escape? d, codeWidth? d with
          | some e, _ => (doublePart? s).map (.cons e 2)
          | none, some width =>
            match coded? width s with
            | some e => (doublePart? (s.drop width)).map (.cons e (2 + width))
            | none => none
          | none, none => none
termination_by s => s.length
decreasing_by all_goals simp_wf; try omega

/-- Goes on with a quoted scalar after its `text`, which comes last part first, for at most `n`
parts. -/
def quotedFrom? (isSingle : Bool) :
    (n : Nat) → (text : List (List Char)) → Cursor → Option Reading
  | 0, _, _ => none
  | n + 1, text, c =>
    let c := c.look Cursor.markerWidth
    if c.atAnyMarker || c.rest.isEmpty then none
    else do
      let part ← if isSingle then some (singlePart c.rest) else doublePart? c.rest
      let c := c.skip part.width
      let c := if part.isJoined then c.skipBreak else c
      let text := part.text :: text
      if c.isAt (if isSingle then singleQuote else doubleQuote) then
        some { text := text.reverse.flatten, cursor := c.skip 1 }
      else
        let (g, c) := Gap.complete 0 { isBroken := part.isJoined } c
        quotedFrom? isSingle n (g.text :: text) c

/-- The quoted scalar at the cursor. -/
def quotedText? (isSingle : Bool) (c : Cursor) : Option Reading :=
  quotedFrom? isSingle c.left [] (c.skip 1)

/-- What becomes of the line breaks at the end of a block. -/
inductive Chomping where
  /-- All are dropped. -/
  | strip
  /-- One is kept. -/
  | clip
  /-- All are kept. -/
  | keep
deriving DecidableEq

/-- The chomping that a character asks for. -/
def Chomping.ofChar? (c : Char) : Option Chomping :=
  if c == '+' then some .keep else if c == '-' then some .strip else none

/-- The depth of indentation that a character asks for. -/
def depthOf? (c : Char) : Option Nat :=
  if '1' ≤ c && c ≤ '9' then some (c.toNat - 0x30) else none

/-- What stands after the mark of a block: its chomping, its depth of indentation if that is given,
and what is left. -/
def blockHeader (c : Cursor) : Chomping × Option Nat × Cursor :=
  match c.peek?.bind Chomping.ofChar? with
  | some chomping =>
    let c := c.skip 1
    match c.peek?.bind depthOf? with
    | some depth => (chomping, some depth, c.skip 1)
    | none => (chomping, none, c)
  | none =>
    match c.peek?.bind depthOf? with
    | some depth =>
      let c := c.skip 1
      match c.peek?.bind Chomping.ofChar? with
      | some chomping => (chomping, some depth, c.skip 1)
      | none => (.clip, some depth, c)
    | none => (.clip, none, c)

/-- Passes indentation and empty lines of a block, for at most `n` lines, after line breaks that
come last one first. The line breaks come back, and the indentation; if it is not known, it is that
of the deepest of these lines, but at least `least`. -/
def blockBreaks? (indent : Option Nat) (least : Nat) :
    (n : Nat) → (breaks : List Char) → (deepest : Nat) → Cursor → Option (Nat × List Char × Cursor)
  | 0, _, _, _ => none
  | n + 1, breaks, deepest, c =>
    let blanks := (c.rest.takeWhile (· == ' ')).length
    let c := c.skip (match indent with
      | some indent => min blanks (indent - c.column)
      | none => blanks)
    let deepest := max deepest c.column
    if c.isAt '\t' && (indent.all (c.column < ·)) then none
    else if c.atBreak then
      blockBreaks? indent least n (c.breakChar :: breaks) deepest c.skipBreak
    else some (indent.getD (max deepest least), breaks.reverse, c)

/-- What has been read of a block: its text, the break after its last line, and the breaks of the
empty lines after that. -/
structure Block where
  /-- The text, last part first. -/
  text : List (List Char) := []
  last : List Char := []
  breaks : List Char
  /-- Whether the last line starts with a blank. -/
  isBlank : Bool := false

/-- The text of a block in front of its next line. Where lines are folded, the break between two
lines that do not start with a blank counts as a blank if there is no empty line between them. -/
def Block.joined (b : Block) (isLiteral nextBlank : Bool) : List (List Char) :=
  if !isLiteral && !b.isBlank && !nextBlank && b.last == ['\n'] then
    (if b.breaks.isEmpty then [' '] else b.breaks) :: b.text
  else b.breaks :: b.last :: b.text

/-- Goes on with a block for at most `n` lines. -/
def blockFrom? (isLiteral : Bool) (indent : Nat) :
    (n : Nat) → Block → Cursor → Option (Block × Cursor)
  | 0, b, c => some (b, c)
  | n + 1, b, c =>
    if c.column ≠ indent || c.rest.isEmpty then some (b, c)
    else do
      let blank := c.peek?.any Document.isBlank
      let line := c.rest.takeWhile (!isBreak ·)
      let text := line :: b.joined isLiteral blank
      let c := c.skip line.length
      let last := if c.atBreak then [c.breakChar] else []
      let c := if c.atBreak then c.skipBreak else c
      let (_, breaks, c) ← blockBreaks? (some indent) 1 (c.left + 1) [] 0 c
      blockFrom? isLiteral indent n { text, last, breaks, isBlank := blank } c

/-- The block at the cursor, inside something indented by `outer` if that is known. -/
def blockText? (isLiteral : Bool) (outer : Option Nat) (c : Cursor) : Option Reading := do
  let (chomping, depth, c) := blockHeader (c.skip 1)
  let c := c.skipWhile isBlank
  let c := if c.isAt '#' then c.skipWhile (!isBreak ·) else c
  if !c.atLineEnd then none
  else
    let c := if c.atBreak then c.skipBreak else c
    let known := depth.map (outer.getD 0 + ·)
    let least := max (outer.map (· + 1) |>.getD 0) 1
    let (indent, breaks, c) ← blockBreaks? known least (c.left + 1) [] 0 c
    let (b, c) ← blockFrom? isLiteral indent c.left { breaks } c
    let text :=
      match chomping with
      | .strip => b.text
      | .clip => b.last :: b.text
      | .keep => b.breaks :: b.last :: b.text
    return { text := text.reverse.flatten, cursor := c }

end LineBasic.Document
