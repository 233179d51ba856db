import LineBasic.Proofs.Expr.Fault

/-!
# The types of values

The name of a variable, an array or a function says whether it holds strings. Bindings, arrays and
built-in functions that go by this are called typed here; what is looked up in them, or computed by
them, then has the type that its name says.

## Main definitions

* `Bindings.Typed`, `Grid.Typed` — what is stored under a name has the type that the name says
* `Gives` — a property of a result, if there is one
* `Expr.Suits` — a value has the type of an expression, as far as a name decides it

## Main results

* `Bindings.Typed.insert`, `Grid.Typed.gives_get`, `Grid.Typed.gives_set` — storing and looking up
* `Builtin.gives_value` — a built-in function yields what its name says
-/

namespace LineBasic

/-! ### What is stored under names -/

/-- Every name is bound to a value of its type. -/
def Bindings.Typed (bound : Bindings) : Prop :=
  ∀ (name : Name) (v : Value), bound[name]? = some v → v.fits name = true

/-- An array holds values of the type that its name says. -/
structure Grid.Typed (name : Name) (g : Grid) : Prop where
  strings : g.strings = name.isString
  cells : ∀ (place : Nat) (v : Value), g.cells[place]? = some v → v.isString = g.strings

/-! ### Results -/

/-- A result that has `Q`, if there is one. -/
def Gives {α : Type} (Q : α → Prop) (r : Except Cause α) : Prop :=
  ∀ a, r = .ok a → Q a

namespace Gives

variable {α β : Type} {Q : α → Prop} {R : β → Prop}

theorem ok {a : α} (h : Q a) : Gives Q (.ok a) := by
  rintro _ ⟨⟩
  exact h

theorem error (c : Cause) : Gives Q (.error c) := nofun

theorem bind {r : Except Cause α} {f : α → Except Cause β} (hf : ∀ a, Gives R (f a)) :
    Gives R (r >>= f) := by
  cases r with
  | ok a => exact hf a
  | error c => exact error c

theorem map {r : Except Cause α} {f : α → β} (hf : ∀ a, R (f a)) : Gives R (r.map f) := by
  cases r with
  | ok a => exact ok (hf a)
  | error c => exact error c

theorem ite {p : Prop} [Decidable p] {r s : Except Cause α} (hr : Gives Q r) (hs : Gives Q s) :
    Gives Q (if p then r else s) := by
  split
  · exact hr
  · exact hs

end Gives

/-! ### Names and values -/

/-- The name that decides the type of an expression: of a variable, of an array or of a function. -/
def Expr.name? : Expr → Option Name
  | .scalar name | .call name _ => some name
  | _ => none

/-- A value has the type of the expression, as far as a name decides it. -/
def Expr.Suits (e : Expr) (v : Value) : Prop :=
  ∀ name ∈ e.name?, v.fits name = true

theorem Value.fits_iff {name : Name} {v : Value} :
    v.fits name = true ↔ v.isString = name.isString := by
  rw [fits, beq_iff_eq, eq_comm]

theorem Value.fits_num {name : Name} (h : name.isString = false) (x : Float) :
    (Value.num x).fits name = true :=
  fits_iff.mpr h.symm

theorem Value.fits_str {name : Name} (h : name.isString = true) (s : Bytes) :
    (Value.str s).fits name = true :=
  fits_iff.mpr h.symm

theorem Value.fits_initial (name : Name) : (Value.initial name).fits name = true := by
  rw [fits_iff, initial]
  split
  · next h => exact h.symm
  · next h => exact (Bool.eq_false_iff.mpr h).symm

namespace Bindings

variable {bound : Bindings}

theorem typed_empty : Bindings.Typed ∅ := by
  intro name v hv
  rw [Std.ExtTreeMap.getElem?_empty] at hv
  cases hv

theorem Typed.insert (h : bound.Typed) {name : Name} {v : Value} (hv : v.fits name = true) :
    Bindings.Typed (bound.insert name v) := by
  intro other w hw
  rw [Std.ExtTreeMap.getElem?_insert] at hw
  split at hw
  · next heq =>
    cases hw
    rw [← Std.LawfulEqOrd.eq_of_compare heq]
    exact hv
  · exact h other w hw

end Bindings

namespace Grid

variable {name : Name} {g : Grid}

theorem gives_make (name : Name) (sizes : List Int) (bound : Int) :
    Gives (Grid.Typed name) (make name.isString sizes bound) := by
  refine .map fun _ => ⟨rfl, fun place v hv => ?_⟩
  rw [Std.ExtTreeMap.getElem?_empty] at hv
  cases hv

/-- An element has the type of the array, whether or not it was set. -/
theorem Typed.isString_cell (h : g.Typed name) (place : Nat) :
    (g.cell place).isString = g.strings := by
  rw [cell]
  cases hcell : g.cells[place]? with
  | some v => exact h.cells place v hcell
  | none =>
    rw [Option.getD_none, initial]
    split
    · next hs => exact hs.symm
    · next hs => exact (Bool.eq_false_iff.mpr hs).symm

theorem Typed.gives_get (h : g.Typed name) (index : List Int) :
    Gives (fun v => v.fits name = true) (g.get index) :=
  .map fun place => Value.fits_iff.mpr ((h.isString_cell place).trans h.strings)

theorem Typed.gives_set (h : g.Typed name) (index : List Int) (v : Value) :
    Gives (Grid.Typed name) (g.set index v) := by
  rw [Grid.set]
  split
  · exact .error _
  · next htype =>
    refine .map fun place => ⟨h.strings, fun other w hw => ?_⟩
    rw [Std.ExtTreeMap.getElem?_insert] at hw
    split at hw
    · cases hw
      simpa using htype
    · exact h.cells other w hw

end Grid

/-! ### Built-in functions -/

namespace Builtin

/-- The built-in functions that yield strings. -/
def yieldsString : Builtin → Bool
  | .chr | .left | .mid | .right | .str => true
  | _ => false

theorem isString_name (b : Builtin) : Name.isString b.name = b.yieldsString := by
  cases b <;> decide +kernel

theorem fits_name {b : Builtin} {v : Value} (h : v.isString = b.yieldsString) :
    v.fits b.name = true :=
  Value.fits_iff.mpr (h.trans b.isString_name.symm)

theorem name_of_find? {name : Name} {b : Builtin} (h : find? name = some b) : b.name = name := by
  obtain ⟨l₁, l₂, htable, -⟩ := List.lookup_eq_some_iff.mp h
  have hmem : (name, b) ∈ table := by
    rw [htable]
    simp
  obtain ⟨b', -, heq⟩ := List.mem_map.mp hmem
  cases heq
  rfl

/-- A built-in function yields what its name says. -/
theorem gives_value (b : Builtin) (args : List Value) :
    Gives (fun v => v.isString = b.yieldsString) (b.value args) := by
  fun_cases b.value args
  case case9 v => exact .bind fun _ => .ite (.error _) (.ok rfl)
  case case10 v => exact .bind fun _ => .ite (.error _) (.ok rfl)
  case case11 v => exact .map fun _ => rfl
  case case12 v =>
    refine .bind fun s => ?_
    cases s with
    | nil => exact .error _
    | cons c s => exact .ok rfl
  case case13 v => exact .bind fun _ => .bind fun _ => .ok rfl
  case case14 v => exact .map fun _ => rfl
  case case15 v => exact .map fun _ => rfl
  case case16 v n => exact .bind fun _ => .bind fun _ => .bind fun _ => .ok rfl
  case case17 v n => exact .bind fun _ => .bind fun _ => .bind fun _ => .ok rfl
  case case18 v place => exact .bind fun _ => .bind fun _ => .ok rfl
  case case19 v place n => exact .bind fun _ => .bind fun _ => .ok rfl
  case case20 => exact .error _
  all_goals exact .map fun _ => rfl

end Builtin

end LineBasic
