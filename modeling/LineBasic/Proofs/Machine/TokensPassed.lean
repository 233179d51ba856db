import LineBasic.Proofs.Machine.Statement
import LineBasic.Proofs.Program.Transfer

/-!
# The tokens that a part of a statement passes

The parts of a statement that read the line move along it. When they succeed, all tokens that they
have passed stand inside a statement: they pass no colon, no `THEN` or `ELSE`, and no word that
another statement starts with. A part that fails ends the run with a fault, and never by a signal.

## Main definitions

* `Machine.Trod` — what a part that succeeds does to the machine
* `Machine.Treads` — parts that move along the line and pass only such tokens

## Main results

* `Machine.treads_expression`, `Machine.treads_target` — an expression and a target
* `Machine.readRules_treads` — the parts of statements that read the line
-/

namespace LineBasic

/-- A stop that is a fault. -/
def Stop.IsFault : Stop → Prop
  | .fault _ => True
  | .signal _ => False

namespace Machine

variable {ε α β : Type} {o : Options} {m m' m'' : Machine} {B : ε → Prop}

/-- `m'` is `m` behind tokens that stand inside a statement, and otherwise only random numbers were
drawn and arrays were added. -/
structure Trod (m m' : Machine) : Prop extends Walked m m' where
  inside : Inside m.program.current m.program.location.index m'.program.location.index

namespace Trod

theorem refl (h : m.program.location.index ≤ m.program.current.length) : m.Trod m :=
  ⟨.refl h, .refl _ _⟩

theorem trans (h : m.Trod m') (h' : m'.Trod m'') : m.Trod m'' := by
  refine ⟨h.toWalked.trans h'.toWalked, h.inside.trans ?_⟩
  rw [← h.current]
  exact h'.inside

/-- The token at the location can be passed if it stands inside a statement. -/
theorem skip {t : Token} (h : m.program.peek? = some t) (ht : t.isInner = true) :
    m.Trod { m with program := m.program.skip 1 } :=
  ⟨.skip h, .single h ht⟩

end Trod

/-- An action that moves along the line. If it succeeds, it has passed only tokens that stand inside
a statement; it stops only for the reasons in `B`. -/
def Treads (B : ε → Prop) (x : EStateM ε Machine α) : Prop :=
  Leads (fun _ => Trod) (fun _ e _ => B e) x

instance : Composes (fun _ => Trod) fun _ (e : ε) _ => B e where
  refl hm := .refl hm.program.index
  trans h h' := h.trans h'
  active h hm := hm.walked h.toWalked
  stop _ he := he

/-- As part of a statement, evaluation fails with a fault. -/
theorem Leads.ofEval {R : Options → Machine → Machine → Prop} {x : Eval α}
    (h : Leads R (fun _ _ _ => True) x) :
    Leads R (fun _ e _ => Stop.IsFault e) (Machine.ofEval x) :=
  .lift h

theorem Leads.fail {R : Options → Machine → Machine → Prop} (c : Cause) :
    Leads R (fun _ e _ => Stop.IsFault e) (Machine.fail c : Exec α) :=
  .throw fun _ => trivial

theorem Treads.ofExcept (r : Except Cause α) : Treads (fun _ => True) (Machine.ofExcept r) := by
  intro o m hm
  cases r with
  | ok a => exact .refl hm.program.index
  | error c => trivial

/-- Evaluation that takes no tokens. -/
theorem Treads.of_walks {x : Eval α} (h : ∀ F d, Walks F d 0 x) : Treads (fun _ => True) x := by
  intro o m hm
  refine (h _ _ m hm.fit hm.program.index).mono (fun _ m' hm' => ⟨hm'.1, ?_⟩) fun _ _ _ => trivial
  rw [hm'.2]
  exact .refl _ _

/-! ### Tokens and expressions at the location -/

theorem treads_accept {k : Token.Kind} (hk : k.isInner = true) :
    Treads (fun _ => True) (onProgram (Program.accept k)) :=
  .accept fun _ ht htk => .skip ht (Token.isInner_of_kind htk hk)

theorem treads_expect {k : Token.Kind} (hk : k.isInner = true) :
    Treads (fun _ => True) (onProgram (Program.expect k)) :=
  .expect (fun _ ht htk => .skip ht (Token.isInner_of_kind htk hk)) fun _ _ => trivial

theorem treads_nextName : Treads (fun _ => True) (onProgram Program.nextName) :=
  .nextName (fun _ ht => .skip ht rfl) fun _ _ _ => trivial

/-- The tokens of the expression at the location are passed if it has a value, since it is whole
then. -/
theorem treads_expression : Treads (fun _ => True) expression := by
  intro o m hm
  have hwalks := hm.fit.expression hm.program.index
  cases hend : expression m with
  | error c m' => trivial
  | ok v m' =>
    rw [hend] at hwalks
    have hwhole : (Expr.read m.program.rest).Whole := by
      rw [expression, get_bind_apply] at hend
      exact Expr.whole_of_evalWith _ hend
    refine ⟨hwalks.1, ?_⟩
    rw [hwalks.2]
    exact .of_take (Expr.isInner_of_whole hwhole)

theorem treads_numberExpression : Treads (fun _ => True) numberExpression :=
  treads_expression.bind fun v => Treads.ofExcept v.number

/-- So are the subscripts at the location. -/
theorem treads_subscripts : Treads (fun _ => True) subscripts := by
  intro o m hm
  have hwalks := hm.fit.subscripts hm.program.index
  cases hend : subscripts m with
  | error c m' => trivial
  | ok index m' =>
    rw [hend] at hwalks
    have hwhole : (Arguments.read m.program.rest).phrase.Whole := by
      rw [subscripts, get_bind_apply] at hend
      obtain ⟨vs, m₁, hvalues, -⟩ := bind_eq_ok hend
      exact Arguments.whole_of_evalArguments _ hvalues
    refine ⟨hwalks.1, ?_⟩
    rw [hwalks.2]
    exact .of_take (Arguments.isInner_of_whole hwhole)

theorem treads_target : Treads (fun _ => True) target :=
  .target treads_nextName (treads_accept rfl) treads_subscripts

/-- The parts of statements that read the line. -/
theorem readRules_treads : ReadRules (fun _ => True) fun _ => Treads Stop.IsFault where
  pure := .pure
  bind := .bind
  look _ hf := .get_bind fun m => hf m trivial
  fail _ _ := .fail _
  ofExcept _ := .ofEval (Treads.ofExcept _)
  accept hk := (treads_accept hk).ofEval
  expect hk := (treads_expect hk).ofEval
  nextName := treads_nextName.ofEval
  expression := treads_expression.ofEval
  numberExpression := treads_numberExpression.ofEval
  subscripts := treads_subscripts.ofEval
  target := treads_target.ofEval

end Machine

end LineBasic
