import LineBasic.Host.Document.Node
import LineBasic.Text.Quoted

/-!
# Records from documents

A mapping is read into a record with named fields. Its keys are known names, and no two of them look
the same. One key is special: it *merges* other mappings, whose entries count where the mapping
itself, or a mapping merged earlier, does not have the name. Merged mappings may merge further ones.

Most faults do not end the reading: a remark is noted, and the record is not to be used. To look at
the same node again and again through references has its limits, since a short text could keep a
reader busy for long in this way.

## Main definitions

* `Document.Schema` — the fields of a record
* `Document.Filling` — a record as far as it has been read
* `Document.Schema.read` — reads a document into a record
-/

namespace LineBasic.Document

/-- What is said of a node that does not have the type it should have. -/
def misfit (n : Node) (type : Bytes) : Bytes :=
  let text := n.written
  let shown := if 10 < text.length then text.take 7 ++ utf8 "..." else text
  utf8 "line " ++ Bytes.decimal n.line ++ utf8 ": cannot unmarshal " ++ n.tag ++ utf8 " \x60"
    ++ shown ++ utf8 "\x60 into " ++ type

/-- A remark on each entry whose key looks like the key of an earlier entry. -/
def repeated : List (Node × Node) → List Bytes
  | [] => []
  | (key, _) :: entries =>
    (entries.filter fun (other, _) => key.isSameKey other).map (fun (other, _) =>
      utf8 "line " ++ Bytes.decimal other.line ++ utf8 ": mapping key "
        ++ Quoted.write key.written ++ utf8 " already defined at line " ++ Bytes.decimal key.line)
      ++ repeated entries

/-- The fields of a record. -/
structure Schema (α : Type) where
  /-- What the type of the record is called. -/
  name : Bytes
  /-- How the value of a named field is taken into a record, if there is such a field. Where the
  value does not fit, there is a remark. -/
  field? : Bytes → Option (Node → α → Except Bytes α)

/-- A record as far as it has been read. -/
structure Filling (α : Type) where
  record : α
  /-- What has been found wrong, last one first. -/
  remarks : List Bytes := []
  /-- The names of the entries that have been read. -/
  names : List Bytes := []
  /-- The number of nodes that have been looked at. -/
  nodes : Nat := 0
  /-- How many of these were reached through a reference. -/
  referenced : Nat := 0

/-- Reading into a record. A failure ends it at once. -/
abbrev Fill (α : Type) := StateT (Filling α) Option

namespace Filling

variable {α : Type}

/-- Whether too many nodes were reached through references. Among up to 400000 nodes these may be 99
of 100; from there on the share sinks evenly, to one tenth of 4000000 nodes. -/
def isExcessive (f : Filling α) : Bool :=
  let low := 400000
  let high := 4000000
  100 < f.referenced && 1000 < f.nodes &&
    (if f.nodes ≤ low then 99 * f.nodes < 100 * f.referenced
    else if high ≤ f.nodes then f.nodes < 10 * f.referenced
    else
      f.nodes * (99 * (high - low) - 89 * (f.nodes - low)) < 100 * (high - low) * f.referenced)

end Filling

namespace Fill

variable {α : Type}

/-- Notes a remark. -/
def remark (text : Bytes) : Fill α Unit :=
  modify fun f => { f with remarks := text :: f.remarks }

/-- Counts a node; `byReference` says whether it was reached through a reference. -/
def count (byReference : Bool) : Fill α Unit := do
  let f ← get
  let referenced := if byReference then f.referenced + 1 else f.referenced
  let f := { f with nodes := f.nodes + 1, referenced }
  if f.isExcessive then failure else set f

/-- Counts a scalar, or a reference and the scalar that it refers to. -/
def visit (byReference : Bool) : Node → Fill α Unit
  | .reference .. => do
    count byReference
    count true
  | _ => count byReference

/-- The name that a key is; a key that means nothing has none. -/
def name? (byReference : Bool) (key : Node) : Fill α (Option Bytes) := do
  visit byReference key
  match key.meaning? with
  | some .nothing => return none
  | some _ => return some key.text
  | none =>
    remark (misfit key (utf8 "string"))
    return none

/-- Takes the value of a named field. -/
def field (schema : Schema α) (byReference : Bool) (name : Bytes) (key value : Node) :
    Fill α Unit := do
  match schema.field? name with
  | none =>
    remark (utf8 "line " ++ Bytes.decimal key.line ++ utf8 ": field " ++ name
      ++ utf8 " not found in type " ++ schema.name)
  | some take =>
    visit byReference value
    match take value (← get).record with
    | .ok record => modify fun f => { f with record }
    | .error text => remark text

/-- Takes the entries of a mapping that are its own. In a merged mapping a name that is already
there is passed over; elsewhere no name comes twice. -/
def own (schema : Schema α) (isMerged byReference : Bool) : List (Node × Node) → Fill α Unit
  | [] => return
  | (key, value) :: entries => do
    if !key.isMerge then
      match ← name? byReference key with
      | none => pure ()
      | some name =>
        if !(← get).names.contains name then
          modify fun f => { f with names := name :: f.names }
          field schema byReference name key value
        else if !isMerged then
          remark (utf8 "line " ++ Bytes.decimal key.line ++ utf8 ": field " ++ name
            ++ utf8 " already set in type " ++ schema.name)
    own schema isMerged byReference entries

/-- Where a mapping stands, as far as it matters. -/
inductive Place where
  /-- It is the document. -/
  | document
  /-- It is merged. -/
  | merged
  /-- It is merged, and several may stand in its place, in a sequence. -/
  | several
deriving DecidableEq

mutual

/-- Takes a mapping, or one that is referred to: its own entries, and then those that it merges. -/
def mapping (schema : Schema α) (place : Place) (byReference : Bool) : Node → Fill α Unit
  | .mapping entries => do
    count byReference
    match repeated entries with
    | [] =>
      own schema (place != .document) byReference entries
      if place = .document && entries.any (·.1.isMerge) then
        entries.forM fun (key, _) => visit byReference key
      merges schema byReference entries
    | remarks => remarks.forM remark
  | .reference _ target => do
    count byReference
    mapping schema (if place = .several then .merged else place) true target
  | .sequence items => if place = .several then mappings schema byReference items else failure
  | .scalar .. => failure

/-- Takes what the entries of a mapping merge. -/
def merges (schema : Schema α) (byReference : Bool) : List (Node × Node) → Fill α Unit
  | [] => return
  | (key, value) :: entries => do
    if key.isMerge then mapping schema .several byReference value
    merges schema byReference entries

/-- Takes merged mappings one after the other. -/
def mappings (schema : Schema α) (byReference : Bool) : List Node → Fill α Unit
  | [] => return
  | n :: items => do
    mapping schema .merged byReference n
    mappings schema byReference items

end

end Fill

/-- Reads a document into a record that has its defaults. A document that means nothing leaves them
as they are; any other one is a mapping. -/
def Schema.read {α : Type} (schema : Schema α) (defaults : α) (n : Node) : Option (Filling α) :=
  let fill : Fill α Unit :=
    match n with
    | .mapping entries => Fill.mapping schema .document false (.mapping entries)
    | n => if n.meaning? = some .nothing then return else Fill.remark (misfit n schema.name)
  (fill.run { record := defaults, nodes := 1 }).map (·.2)

end LineBasic.Document
