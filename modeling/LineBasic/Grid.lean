import LineBasic.Fault
import Std.Data.ExtTreeMap

/-!
# Arrays

An array has a number of elements along each axis and is stored in row-major order: the last
subscript varies fastest. All its elements are strings or all are numbers. Elements that were never
set hold the empty string or zero, and only set elements take room.

## Main definitions

* `Grid.make` — an array of given sizes, within a bound on the number of elements
* `Grid.offset?` — the row-major place of an element
* `Grid.size` — the number of elements
* `Grid.get`, `Grid.set` — reading and writing one element
-/

namespace LineBasic

/-- An array: sizes along the axes, the type of the elements, and the elements that were set. -/
structure Grid where
  sizes : List Nat
  strings : Bool
  cells : Std.ExtTreeMap Nat Value

namespace Grid

/-- Multiplies `total` by the sizes one after the other. A size that is not positive, or a product
beyond `bound`, stops the count. -/
def count (bound : Int) : (total : Int) → List Int → Except Cause Int
  | total, [] => if bound < total then .error .arrayTooLarge else .ok total
  | total, n :: sizes =>
    if n ≤ 0 then .error .illegalQuantity
    else if bound.tdiv n < total then .error .arrayTooLarge
    else count bound (total * n) sizes

/-- An array with the given sizes and at most `bound` elements. -/
def make (strings : Bool) (sizes : List Int) (bound : Int) : Except Cause Grid :=
  (count bound 1 sizes).map fun _ => ⟨sizes.map Int.toNat, strings, ∅⟩

/-- The row-major place of an element behind `before` full rows. -/
def offsetFrom : (before : Nat) → (sizes : List Nat) → (index : List Int) → Option Nat
  | before, [], [] => some before
  | before, n :: sizes, i :: index =>
    if 0 ≤ i && i < n then offsetFrom (before * n + i.toNat) sizes index else none
  | _, _, _ => none

/-- The row-major place of an element: there is one for each index along each axis. -/
def offset? (g : Grid) (index : List Int) : Option Nat :=
  offsetFrom 0 g.sizes index

/-- The number of elements. -/
def size (g : Grid) : Nat :=
  g.sizes.foldl (· * ·) 1

/-- The place of the element with a given index. -/
def place (g : Grid) (index : List Int) : Except Cause Nat :=
  match g.offset? index with
  | some place =>
    if place < g.size then .ok place else .error (.internal (.indexOutOfRange place g.size))
  | none => .error .badSubscript

/-- What an element holds before it is set. -/
def initial (g : Grid) : Value :=
  if g.strings then .str [] else .num 0

/-- The element at a place. -/
def cell (g : Grid) (place : Nat) : Value :=
  g.cells[place]?.getD g.initial

/-- Reads an element. -/
def get (g : Grid) (index : List Int) : Except Cause Value :=
  (g.place index).map g.cell

/-- Writes an element; the type of the value is checked first. -/
def set (g : Grid) (index : List Int) (v : Value) : Except Cause Grid :=
  if v.isString != g.strings then .error .typeMismatch
  else (g.place index).map fun place => { g with cells := g.cells.insert place v }

/-- The elements that differ from the initial one, with their places in ascending order. -/
def entries (g : Grid) : List (Nat × Value) :=
  g.cells.toList.filter fun (_, v) => v != g.initial

end Grid

end LineBasic
