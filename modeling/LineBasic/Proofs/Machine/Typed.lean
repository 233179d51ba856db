import LineBasic.Proofs.Machine.Walk
import LineBasic.Proofs.Program.Typed

/-!
# Names decide the types of values

What a machine stores under a name has the type that the name says. Evaluation keeps it so, wherever
it ends: arguments are checked when they are bound, and an array that is made at its first use is
made for its name. So the value of a name has the type of the name, whether it is a variable, an
array element or a call.

Nothing here depends on where the location is, or on which functions and lines there are.

## Main definitions

* `Machine.Typed` — what a machine stores under a name has the type that the name says

## Main results

* `Machine.Typed.lookup` — the value of a variable fits its name
* `Machine.yields_evalWith`, `Machine.yields_expression` — evaluation keeps types, and the value of
  a name fits the name
* `Machine.keepsTyped_assign` — so does an assignment
-/

namespace LineBasic

/-- What a machine stores under a name has the type that the name says. -/
structure Machine.Typed (m : Machine) : Prop where
  scalars : Bindings.Typed m.scalars
  program : m.program.Typed
  arrays : ∀ (name : Name) (g : Grid), m.arrays[name]? = some g → g.Typed name

namespace Machine

variable {α β : Type} {m m' : Machine}

/-! ### Evaluation -/

namespace Typed

/-- The value of a variable fits its name, wherever the program stands. -/
theorem lookup (h : m.Typed) (name : Name) : (m.lookup name).fits name = true := by
  rw [Machine.lookup]
  cases hparam : m.program.param? name with
  | some v =>
    obtain ⟨f, hf, hv⟩ := List.exists_of_findSome?_eq_some hparam
    exact h.program f hf name v hv
  | none =>
    rw [Option.getD_none, global]
    cases hscalar : m.scalars[name]? with
    | some v => exact h.scalars name v hscalar
    | none => exact Value.fits_initial name

/-- Only what is stored under names counts. -/
theorem congr (h : m.Typed) (hscalars : m'.scalars = m.scalars)
    (hcalls : m'.program.calls ⊆ m.program.calls) (harrays : m'.arrays = m.arrays) : m'.Typed := by
  refine ⟨?_, h.program.of_subset hcalls, ?_⟩
  · rw [hscalars]
    exact h.scalars
  · rw [harrays]
    exact h.arrays

theorem withProgram (h : m.Typed) {p : Program} (hp : p.Typed) : { m with program := p }.Typed :=
  ⟨h.scalars, hp, h.arrays⟩

theorem insertScalar (h : m.Typed) {name : Name} {v : Value} (hv : v.fits name = true) :
    { m with scalars := m.scalars.insert name v }.Typed :=
  ⟨Bindings.Typed.insert h.scalars hv, h.program, h.arrays⟩

theorem insertArray (h : m.Typed) {name : Name} {g : Grid} (hg : g.Typed name) :
    { m with arrays := m.arrays.insert name g }.Typed := by
  refine ⟨h.scalars, h.program, fun other g' hg' => ?_⟩
  rw [Std.ExtTreeMap.getElem?_insert] at hg'
  split at hg'
  · next heq =>
    cases hg'
    rw [← Std.LawfulEqOrd.eq_of_compare heq]
    exact hg
  · exact h.arrays other g' hg'

end Typed

theorem keepsTyped_onProgram {x : Program.Action α}
    (hx : Keeps Program.Typed Cause.Unnamed x) : Keeps Typed Cause.Unnamed (onProgram x) :=
  fun m hm => concludes_onProgram ((hx m.program hm.program).mono
    (fun _ _ hp => hm.withProgram hp) fun _ _ hp => ⟨hm.withProgram hp.1, hp.2⟩)

theorem keepsTyped_skip (n : Nat) : Keeps Typed Cause.Unnamed (skip n) :=
  .modify fun _ hm => hm.congr rfl (List.Subset.refl _) rfl

theorem keepsTyped_takeClosing (close : Closing) :
    Keeps Typed Cause.Unnamed (takeClosing close) := by
  cases close with
  | closed => exact keepsTyped_skip 1
  | ended => exact .throw rfl
  | blocked => exact .throw rfl

theorem yields_ofExcept {r : Except Cause α} {Q : α → Prop} (hr : FailsInExpression r)
    (hQ : Gives Q r) : Yields Typed Cause.Unnamed Q (ofExcept r) := by
  intro m hm
  cases r with
  | ok a => exact ⟨hm, hQ a rfl⟩
  | error c => exact ⟨hm, Cause.unnamed_of_inExpression (hr c rfl)⟩

theorem keepsTyped_ofExcept {r : Except Cause α} (hr : FailsInExpression r) :
    Keeps Typed Cause.Unnamed (ofExcept r) :=
  (yields_ofExcept (Q := fun _ => True) hr fun _ _ => trivial).keeps

/-- After the check, the value is known to fit. -/
theorem yields_checkFits (name : Name) (v : Value) :
    Yields Typed Cause.Unnamed (fun _ => v.fits name = true) (checkFits name v) := by
  rw [checkFits]
  split
  · next hfits => exact .pure hfits
  · exact .throw rfl

theorem yields_applyBuiltin (b : Builtin) (args : List Value) :
    Yields Typed Cause.Unnamed (fun v => v.isString = b.yieldsString) (applyBuiltin b args) := by
  fun_cases applyBuiltin b args
  · have hlast : Yields Typed Cause.Unnamed (fun v => v.isString = false)
        (do return .num (← get).lastRandom : Eval Value) := .get_bind fun m _ => .pure rfl
    refine .andThen (keepsTyped_ofExcept (Builtin.failsInExpression_draws _)) fun draws => ?_
    cases draws with
    | false => exact hlast
    | true =>
      refine .andThen (.modify fun m hm => ?_) fun _ => hlast
      dsimp only
      generalize m.random.draw = drawn
      exact hm.congr rfl (List.Subset.refl _) rfl
  · exact yields_ofExcept (b.failsInExpression args) (b.gives_value args)

/-- An array that is made at its first use has the type of its name. -/
theorem yields_arrayFor (name : Name) (axes : Nat) :
    Yields Typed Cause.Unnamed (Grid.Typed name) (arrayFor name axes) := by
  refine .get_bind fun m hm => ?_
  split
  · next g hg => exact .pure (hm.arrays name g hg)
  · refine .bind (yields_ofExcept (Grid.failsInExpression_make _ _ _)
      (Grid.gives_make name _ _)) fun g hg => ?_
    refine .andThen (fun _ _ => hm.insertArray hg) fun _ => .pure hg

section Expressions

variable {body : Name → Eval Value}

/-- What holds of the bodies of functions, when they are evaluated by `body`. -/
def BodiesFit (body : Name → Eval Value) : Prop :=
  ∀ name, Yields Typed Cause.Unnamed (fun v => v.fits name = true) (body name)

mutual

/-- An expression keeps types, and its value has the type of the name that it is the value of. -/
theorem yields_evalWith (hbody : BodiesFit body) (e : Expr) :
    Yields Typed Cause.Unnamed e.Suits (evalWith body e) := by
  match e with
  | .number x =>
    rw [evalWith]
    exact .andThen (keepsTyped_skip 1) fun _ => .pure nofun
  | .string s =>
    rw [evalWith]
    exact .andThen (keepsTyped_skip 1) fun _ => .pure nofun
  | .scalar name =>
    rw [evalWith]
    refine .andThen (keepsTyped_skip 1) fun _ => .get_bind fun m hm => .pure ?_
    rintro _ ⟨⟩
    exact hm.lookup name
  | .paren e close =>
    rw [evalWith]
    exact .andThen (keepsTyped_skip 1) fun _ => .bind (yields_evalWith hbody e) fun v _ =>
      .andThen (keepsTyped_takeClosing close) fun _ => .pure nofun
  | .unary op e =>
    rw [evalWith]
    exact .andThen (keepsTyped_skip 1) fun _ => .bind (yields_evalWith hbody e) fun v _ =>
      yields_ofExcept (op.failsInExpression v) fun _ _ => nofun
  | .binary op left right =>
    rw [evalWith]
    exact .bind (yields_evalWith hbody left) fun v _ => .andThen (keepsTyped_skip 1) fun _ =>
      .bind (yields_evalWith hbody right) fun w _ =>
        yields_ofExcept (op.failsInExpression v w) fun _ _ => nofun
  | .call name args =>
    rw [evalWith]
    refine Yields.mono (Q := fun v => v.fits name = true) ?_ fun v hv => ?_
    · refine .andThen (keepsTyped_skip 2) fun _ => ?_
      split
      · next b hb =>
        rw [← Builtin.name_of_find? hb]
        exact .andThen (keepsTyped_evalArguments hbody args) fun vs =>
          (yields_applyBuiltin b vs).mono fun v hv => Builtin.fits_name hv
      · refine .get_bind fun m hm => ?_
        split
        · refine .bind (yields_bindArguments hbody args _ _ ∅ Bindings.typed_empty)
            fun params hp => ?_
          exact .andThen (keepsTyped_onProgram (Program.keepsTyped_pushFunction hp _)) fun _ =>
            hbody name
        · refine .andThen (keepsTyped_evalArguments hbody args) fun vs => ?_
          refine .andThen (keepsTyped_ofExcept (failsInExpression_indices vs)) fun index => ?_
          exact .bind (yields_arrayFor name _) fun g hg =>
            yields_ofExcept (g.failsInExpression_get index) (hg.gives_get index)
    · rintro _ ⟨⟩
      exact hv
  | .missing => exact .throw rfl
  | .misplaced t =>
    rw [evalWith]
    exact .andThen (keepsTyped_skip 1) fun _ => .throw rfl

/-- So does an argument list. -/
theorem keepsTyped_evalArguments (hbody : BodiesFit body) (args : Arguments) :
    Keeps Typed Cause.Unnamed (evalArguments body args) := by
  match args with
  | .last e close =>
    rw [evalArguments]
    exact (yields_evalWith hbody e).keeps.bind fun v =>
      (keepsTyped_takeClosing close).bind fun _ => .pure _
  | .more e rest =>
    rw [evalArguments]
    exact (yields_evalWith hbody e).keeps.bind fun v => (keepsTyped_skip 1).bind fun _ =>
      (keepsTyped_evalArguments hbody rest).bind fun vs => .pure _

/-- Arguments are bound only to parameters that they fit. -/
theorem yields_bindArguments (hbody : BodiesFit body) (args : Arguments) (p : Name)
    (ps : List Name) (bound : Bindings) (hbound : bound.Typed) :
    Yields Typed Cause.Unnamed Bindings.Typed (bindArguments body p ps args bound) := by
  match args with
  | .last e close =>
    rw [bindArguments]
    refine .bind (yields_evalWith hbody e) fun v _ => .bind (yields_checkFits p v) fun _ hv => ?_
    split
    · exact .andThen (keepsTyped_takeClosing close) fun _ => .pure (hbound.insert hv)
    · exact .throw rfl
    · exact .throw rfl
  | .more e rest =>
    rw [bindArguments]
    refine .bind (yields_evalWith hbody e) fun v _ => .bind (yields_checkFits p v) fun _ hv => ?_
    split
    · exact .throw rfl
    · exact .andThen (keepsTyped_skip 1) fun _ =>
        yields_bindArguments hbody rest _ _ _ (hbound.insert hv)

end

/-- Returning from a function keeps types as well, whatever happened inside it. -/
theorem yields_inFunction {x : Eval α} {Q : α → Prop} (hx : Yields Typed Cause.Unnamed Q x) :
    Yields Typed Cause.Unnamed Q (inFunction x) := by
  intro m hm
  have hend := hx m hm
  have hpop := keepsTyped_onProgram Program.keepsTyped_popFunction
  rw [inFunction]
  cases hxm : x m with
  | ok a m₁ =>
    rw [hxm] at hend
    have hback := hpop m₁ hend.1
    dsimp only
    split
    · next m₂ heq =>
      rw [heq] at hback
      exact ⟨hback, hend.2⟩
    · next c m₂ heq =>
      rw [heq] at hback
      exact hback
  | error c m₁ =>
    rw [hxm] at hend
    have hback := hpop m₁ hend.1
    dsimp only
    split
    · next m₂ heq =>
      rw [heq] at hback
      exact ⟨hback, hend.2⟩
    · next c' m₂ heq =>
      rw [heq] at hback
      exact ⟨hback.1, hend.2⟩

/-- The value of a function was checked against its name, however deeply calls nest. -/
theorem bodiesFit_bodyAt (depth : Nat) : BodiesFit (bodyAt depth) := by
  induction depth with
  | zero => exact fun _ => .throw rfl
  | succ depth ih =>
    intro name
    refine yields_inFunction ?_
    refine .andThen (.get_bind fun m _ => (yields_evalWith ih _).keeps)
      fun v => .get_bind fun m _ => ?_
    dsimp only
    split
    · exact .throw rfl
    · exact .bind (yields_checkFits name v) fun _ hv => .pure hv

end Expressions

/-- The value of the expression at the location has the type of the name that it is the value of. -/
theorem yields_expression :
    ∀ m : Machine, m.Typed → Concludes
      (fun v m' => m'.Typed ∧ (Expr.read m.program.rest).Suits v)
      (fun c m' => m'.Typed ∧ c.Unnamed) (expression m) :=
  fun m hm => yields_evalWith (bodiesFit_bodyAt m.callsLeft) _ m hm

theorem keepsTyped_expression : Keeps Typed Cause.Unnamed expression :=
  fun m hm => (yields_expression m hm).mono (fun _ _ h => h.1) fun _ _ h => h

theorem keepsTyped_numberExpression : Keeps Typed Cause.Unnamed numberExpression :=
  keepsTyped_expression.bind fun v => keepsTyped_ofExcept v.failsInExpression_number

theorem keepsTyped_subscripts : Keeps Typed Cause.Unnamed subscripts :=
  .get_bind fun m _ => (keepsTyped_evalArguments (bodiesFit_bodyAt m.callsLeft) _).bind fun vs =>
    keepsTyped_ofExcept (failsInExpression_indices vs)

/-! ### Targets -/

theorem keepsTyped_target : Keeps Typed Cause.Unnamed target := by
  refine (keepsTyped_onProgram Program.keepsTyped_nextName).bind fun name => ?_
  refine (keepsTyped_onProgram (Program.keepsTyped_accept _)).bind fun found => ?_
  cases found with
  | true => exact keepsTyped_subscripts.bind fun index => .pure _
  | false => exact .pure _

theorem keepsTyped_setVariable {name : Name} {v : Value} (hv : v.fits name = true) :
    Keeps Typed Cause.Unnamed (setVariable name v) :=
  .modify fun _ hm => hm.insertScalar hv

/-- A value is checked before it is stored. -/
theorem keepsTyped_assign (t : Target) (v : Value) : Keeps Typed Cause.Unnamed (assign t v) := by
  refine .bind_of_yields (yields_checkFits t.name v) fun _ hv => ?_
  cases t with
  | scalar name => exact keepsTyped_setVariable hv
  | element name index =>
    refine .bind_of_yields (yields_arrayFor name index.length) fun g hg => ?_
    refine .bind_of_yields (yields_ofExcept (g.failsInExpression_set index v)
      (hg.gives_set index v)) fun g' hg' => ?_
    exact .modify fun _ hm => hm.insertArray hg'

end Machine

end LineBasic
