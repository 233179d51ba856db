import LineBasic.Host.Document.Scalar
import LineBasic.Host.Document.Token

/-!
# The structure of documents

A document is a node: a scalar, a sequence or a mapping. Sequences and mappings are written as
blocks of lines or inside brackets. A node may be given a name, and a later node may be a reference
to it; a node may even have a reference to itself inside, as long as nobody looks at it.

Only the first document of a text is read. What follows it may be anything, except that it has to be
cut into a few tokens.

## Main definitions

* `Document.Node` — a node of a document
* `Document.Parse` — reading nodes from tokens
* `Document.Node.ofText?` — the first document of a text
-/

namespace LineBasic.Document

/-- A node of a document, with the line it starts on if it is a scalar. -/
inductive Node where
  | scalar (line : Nat) (s : Scalar)
  | sequence (items : List Node)
  | mapping (entries : List (Node × Node))
  /-- A reference to a node with a name. -/
  | reference (name : Bytes) (target : Node)

namespace Node

/-- What a node means, if it is a scalar whose tag allows for it, or a reference to one. -/
def meaning? : Node → Option Meaning
  | scalar _ s => s.meaning?
  | reference _ target => target.meaning?
  | _ => none

/-- The tag of a node. -/
def tag : Node → Bytes
  | scalar _ s => s.tag.getD ((s.meaning?.map Meaning.tag).getD [])
  | sequence _ => Tag.seq
  | mapping _ => Tag.map
  | reference _ target => target.tag

/-- What is written for a scalar; sequences and mappings have no text. -/
def written : Node → Bytes
  | scalar _ s => s.text
  | reference _ target => target.written
  | _ => []

/-- The text of a scalar: what it means, if it means a text, and what is written otherwise. -/
def text (n : Node) : Bytes :=
  match n.meaning? with
  | some (.text s) => s
  | _ => n.written

/-- The number of the line that a scalar starts on. -/
def line : Node → Nat
  | scalar line _ => line + 1
  | reference _ target => target.line
  | _ => 0

/-- Whether a key stands for the entries of other mappings. -/
def isMerge : Node → Bool
  | scalar _ s =>
    s.text == utf8 "<<" && (if s.tag.isNone then s.isPlain else s.tag == some Tag.merge)
  | _ => false

/-- Whether two keys look the same. -/
def isSameKey : Node → Node → Bool
  | scalar _ s, scalar _ t => s.text == t.text
  | reference m _, reference n _ => m == n
  | sequence _, sequence _ => true
  | mapping _, mapping _ => true
  | _, _ => false

/-- A scalar with no text. -/
def empty : Node :=
  scalar 0 { isPlain := true, text := [] }

/-- What a reference finds inside of the node that it refers to. -/
def unfinished : Node :=
  sequence []

end Node

/-- The state of reading nodes. -/
structure Parser where
  rest : List Token
  /-- The number of tokens that have been read. -/
  taken : Nat := 0
  /-- The nodes with a name, latest first. -/
  names : List (List Char × Node) := []
  /-- What the declared handles of tags stand for. -/
  handles : List (Bytes × Bytes) := []

/-- Reading nodes from tokens. -/
abbrev Parse := StateT Parser Option

namespace Parse

/-- The next token. -/
def peek : Parse Token := do
  match (← get).rest with
  | t :: _ => return t
  | [] => failure

/-- Takes the next token. -/
def skip : Parse Unit :=
  modify fun p => { p with rest := p.rest.drop 1, taken := p.taken + 1 }

/-- Takes the next token if it is `t`. -/
def accept (t : Token) : Parse Bool := do
  if (← peek) == t then
    skip
    return true
  else return false

/-- Takes the next token, which must be `t`. -/
def expect (t : Token) : Parse Unit := do
  if !(← accept t) then failure

/-- What stands in front of a node: a name and a tag, in any order. -/
structure Properties where
  name : Option (List Char) := none
  tag : Option Tag := none

/-- Whether there is nothing in front of a node. -/
def Properties.isEmpty (p : Properties) : Bool :=
  p.name.isNone && p.tag.isNone

/-- Takes what stands in front of a node. -/
def properties : Parse Properties := do
  match ← peek with
  | .anchor name =>
    skip
    match ← peek with
    | .tag tag =>
      skip
      return ⟨some name, some tag⟩
    | _ => return ⟨some name, none⟩
  | .tag tag =>
    skip
    match ← peek with
    | .anchor name =>
      skip
      return ⟨some name, some tag⟩
    | _ => return ⟨none, some tag⟩
  | _ => return {}

/-- What a tag says, if it says anything; its handle must be known. -/
def meant (tag : Option Tag) : Parse (Option Bytes) := do
  match tag with
  | none => return none
  | some tag =>
    match tag.resolve? (← get).handles with
    | some text => return if text == Tag.unspecific then none else some text
    | none => failure

/-- Whether a token ends an entry of a block mapping that has nothing in it. -/
def endsEntry (t : Token) : Bool :=
  t == .key || t == .value || t == .blockEnd

/-- Items of a sequence in lines, with a way to read one. -/
def blockItems (item : Parse Node) (isEnd : Token → Bool) : (n : Nat) → Parse (List Node)
  | 0 => failure
  | n + 1 => do
    if ← accept .entry then
      let first ← if isEnd (← peek) then pure .empty else item
      return first :: (← blockItems item isEnd n)
    else return []

/-- Entries of a mapping in lines, up to its end. -/
def blockEntries (node : Parse Node) : (n : Nat) → Parse (List (Node × Node))
  | 0 => failure
  | n + 1 => do
    if ← accept .blockEnd then return []
    expect .key
    let key ← if endsEntry (← peek) then pure .empty else node
    let value ←
      if ← accept .value then
        if endsEntry (← peek) then pure .empty else node
      else pure .empty
    return (key, value) :: (← blockEntries node n)

/-- The value of an entry inside brackets, if it has one. -/
def flowValue (node : Parse Node) (closing : Token) : Parse Node := do
  if ← accept .value then
    let next ← peek
    if next == .comma || next == closing then return .empty else node
  else return .empty

/-- An entry of a mapping inside braces; without a key mark it has no value. -/
def flowEntry (node : Parse Node) : Parse (Node × Node) := do
  if ← accept .key then
    let first ← peek
    let isBare := first == .value || first == .comma || first == .closeBrace
    let key ← if isBare then pure .empty else node
    return (key, ← flowValue node .closeBrace)
  else return (← node, .empty)

/-- What stands between brackets, up to the closing one, with a comma between any two. -/
def flowItems {α : Type} (item : Parse α) (closing : Token) :
    (n : Nat) → (isFirst : Bool) → Parse (List α)
  | 0, _ => failure
  | n + 1, isFirst => do
    if ← accept closing then return []
    if !isFirst then expect .comma
    if ← accept closing then return []
    let first ← item
    return first :: (← flowItems item closing n false)

/-- An item of a sequence inside brackets; an entry stands for a mapping of its own. Where it has no
key, the token in place of the key is dropped. -/
def flowItem (node : Parse Node) : Parse Node := do
  if ← accept .key then
    let first ← peek
    let key ←
      if first == .value || first == .comma || first == .closeBracket then
        skip
        pure .empty
      else node
    let value ← flowValue node .closeBracket
    return .mapping [(key, value)]
  else node

/-- The content of a node, if there is any. Lines may be given without an indentation of their own
where a value of a mapping is due. -/
def content? (block value : Parse Node) (flow : Parse Node) (inBlock asValue : Bool) (n : Nat) :
    Parse (Option Node) := do
  match ← peek with
  | .scalar line isPlain text =>
    skip
    return some (.scalar line { isPlain, text := bytesOf text })
  | .openBracket =>
    skip
    return some (.sequence (← flowItems (flowItem flow) .closeBracket n true))
  | .openBrace =>
    skip
    return some (.mapping (← flowItems (flowEntry flow) .closeBrace n true))
  | .entry =>
    if asValue then
      let isEnd (t : Token) : Bool := t == .entry || endsEntry t
      return some (.sequence (← blockItems block isEnd n))
    else return none
  | .blockSequence =>
    if !inBlock then return none
    skip
    let items ← blockItems block (fun t => t == .entry || t == .blockEnd) n
    expect .blockEnd
    return some (.sequence items)
  | .blockMapping =>
    if !inBlock then return none
    skip
    return some (.mapping (← blockEntries value n))
  | _ => return none

/-- Gives a scalar a tag; other nodes keep what they are. -/
def withTag (tag : Option Bytes) : Node → Node
  | .scalar line s => .scalar line { s with tag }
  | n => n

/-- Gives a name to what `content` reads. The name is known inside already, and a name that is given
again there takes its place. -/
def named (name : Option (List Char)) (content : Parse Node) : Parse Node := do
  match name with
  | none => content
  | some name =>
    let before := (← get).names.length
    modify fun p => { p with names := (name, .unfinished) :: p.names }
    let result ← content
    modify fun p =>
      { p with names := p.names.set (p.names.length - 1 - before) (name, result) }
    return result

/-- Reads a node. Depth is bounded by `n`, and since each node inside takes a token, so is their
number. -/
def node (inBlock asValue : Bool) : (n : Nat) → Parse Node
  | 0 => failure
  | n + 1 => do
    match ← peek with
    | .reference name =>
      skip
      match (← get).names.lookup name with
      | some target => return .reference (bytesOf name) target
      | none => failure
    | _ =>
      let p ← properties
      let tag ← meant p.tag
      named p.name do
        let content ← content? (node true false n) (node true true n) (node false false n) inBlock
          asValue n
        match content with
        | some result => return withTag tag result
        | none => if p.isEmpty then failure else return withTag tag .empty

/-- Takes the directives in front of a document, at most `n` of them. The version is given at most
once, and no handle is declared twice. -/
def directives : (n : Nat) → (hasVersion : Bool) → Parse Unit
  | 0, _ => failure
  | n + 1, hasVersion => do
    match ← peek with
    | .version major minor =>
      if hasVersion || major ≠ 1 || minor ≠ 1 then failure
      skip
      directives n true
    | .tagHandle handle start =>
      if ((← get).handles.lookup handle).isSome then failure
      modify fun p => { p with handles := (handle, start) :: p.handles }
      skip
      directives n hasVersion
    | _ => return

/-- Reads the first document; `none` if there is none. -/
def document (n : Nat) : Parse (Option Node) := do
  expect .streamStart
  match ← peek with
  | .streamEnd => return none
  | .version .. | .tagHandle .. | .documentStart =>
    directives n false
    expect .documentStart
    match ← peek with
    | .version .. | .tagHandle .. | .documentStart | .documentEnd | .streamEnd =>
      return some .empty
    | _ => return some (← node true false n)
  | _ => return some (← node true false n)

end Parse

/-- The first document of a text: `none` if it is not well formed, and `some none` if there is no
document at all. -/
def Node.ofText? (text : Bytes) : Option (Option Node) := do
  let tokens := Tokens.ofSource (Source.ofBytes text)
  let (result, p) ← (Parse.document (tokens.list.length + 1)).run { rest := tokens.list }
  if tokens.suffice p.taken then return result else none

end LineBasic.Document
