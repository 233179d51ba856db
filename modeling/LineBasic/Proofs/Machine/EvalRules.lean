import LineBasic.Proofs.Expr.Fault
import LineBasic.Proofs.Expr.Width
import LineBasic.Proofs.Machine.Call

/-!
# Rules for evaluation

Many things are true of evaluation because they are true of what evaluation is made of: moving along
the tokens, looking a value up, drawing a random number, asking for an array, calling a function. If
a property of actions goes from the parts of an action to the whole, expressions and argument lists
have it, and if a function can be entered and left with it, so do calls, however deeply they nest.
The inductions are done here once, for all such properties.

The properties may count tokens: where an expression succeeds, it moves past as many tokens as it is
wide, and often that is what keeps its next part on the line.

## Main definitions

* `Machine.Backdrop`, `Machine.against` — other values for what evaluation does not look at
* `EvalRules` — a property of actions that goes from the parts of an evaluation to the whole
* `CallRules` — one that does not count tokens, and that functions can be called with

## Main results

* `EvalRules.expr`, `EvalRules.arguments`, `EvalRules.bound` — evaluation, given calls
* `CallRules.bodyAt` — calls, by induction on how deeply they may nest
* `CallRules.expression`, `CallRules.subscripts`, `CallRules.target` — evaluation at the location
-/

namespace LineBasic

namespace Machine

/-- Other values for what evaluation does not look at. An array is looked at only when it is asked
for. -/
structure Backdrop where
  immediate : List Token
  breakpoint : Option Location
  arrays : Std.ExtTreeMap Name Grid
  reply : Option Bytes
  prompt : Bytes
  branchInput : Option Location
  output : Array Event
  log : Array LogRecord

/-- The machine with other values for what evaluation does not look at. -/
def against (m : Machine) (b : Backdrop) : Machine :=
  { m with
    program := { m.program with immediate := b.immediate, breakpoint := b.breakpoint }
    arrays := b.arrays
    reply := b.reply
    prompt := b.prompt
    branchInput := b.branchInput
    output := b.output
    log := b.log }

/-- The values that a machine has itself. -/
def backdrop (m : Machine) : Backdrop :=
  ⟨m.program.immediate, m.program.breakpoint, m.arrays, m.reply, m.prompt, m.branchInput, m.output,
    m.log⟩

end Machine

open Machine

/-- A property of actions that move past a number of tokens, which goes from the parts of an
evaluation to the whole. A machine that is looked at may be known to satisfy `I`. -/
structure EvalRules (I : Machine → Prop) (P : (α : Type) → Nat → Eval α → Prop) : Prop where
  pure : ∀ {α : Type} (a : α), P α 0 (Pure.pure a)
  throw : ∀ {α : Type} (k : Nat) {c : Cause}, c.inExpression = true →
    P α k (MonadExcept.throw c)
  bind : ∀ {α β : Type} {k l : Nat} {x : Eval α} {f : α → Eval β}, P α k x →
    (∀ a, P β l (f a)) → P β (k + l) (x >>= f)
  look : ∀ {α : Type} {k : Nat} {f : Machine → Eval α}, (∀ m b, f (m.against b) = f m) →
    (∀ m, I m → P α k (f m)) → P α k (get >>= f)
  skip : ∀ n : Nat, P Unit n (Machine.skip n)
  draw : P Unit 0 (modify fun m =>
    let (x, random) := m.random.draw
    { m with lastRandom := x, random })
  arrayFor : ∀ (name : Name) (axes : Nat), P Grid 0 (Machine.arrayFor name axes)

namespace EvalRules

variable {α : Type} {I : Machine → Prop} {P : (α : Type) → Nat → Eval α → Prop}

theorem ofExcept (h : EvalRules I P) {r : Except Cause α} (hr : FailsInExpression r) :
    P α 0 (Machine.ofExcept r) := by
  cases r with
  | ok a => exact h.pure a
  | error c => exact h.throw 0 (hr c rfl)

theorem takeClosing (h : EvalRules I P) (close : Closing) :
    P Unit close.width (Machine.takeClosing close) := by
  cases close with
  | closed => exact h.skip 1
  | ended => exact h.throw _ rfl
  | blocked => exact h.throw _ rfl

theorem checkFits (h : EvalRules I P) (name : Name) (v : Value) :
    P Unit 0 (Machine.checkFits name v) := by
  rw [Machine.checkFits]
  split
  · exact h.pure ()
  · exact h.throw 0 rfl

theorem applyBuiltin (h : EvalRules I P) (b : Builtin) (args : List Value) :
    P Value 0 (Machine.applyBuiltin b args) := by
  fun_cases Machine.applyBuiltin b args
  · have hlast : P Value 0 (do return .num (← get).lastRandom) :=
      h.look (fun _ _ => rfl) fun _ _ => h.pure _
    refine h.bind (l := 0) (h.ofExcept (Builtin.failsInExpression_draws _)) fun draws => ?_
    cases draws with
    | false => exact hlast
    | true => exact h.bind (l := 0) h.draw fun _ => hlast
  · exact h.ofExcept (b.failsInExpression args)

/-! ### Expressions -/

/-- What is asked of calls, which start when the arguments are bound: that they have the property,
and move past no tokens of the caller's. -/
def Calls (I : Machine → Prop) (P : (α : Type) → Nat → Eval α → Prop)
    (body : Name → Eval Value) : Prop :=
  ∀ (m : Machine) (name : Name) (f : Function) (params : Bindings), I m →
    m.functions[name]? = some f →
    P Value 0 (do Machine.onProgram (Program.pushFunction params f.body); body name)

variable {body : Name → Eval Value}

mutual

/-- An expression has the property if calls do. -/
theorem expr (h : EvalRules I P) (hbody : Calls I P body) (e : Expr) :
    P Value e.width (evalWith body e) := by
  match e with
  | .number x => exact h.bind (h.skip 1) fun _ => h.pure _
  | .string s => exact h.bind (h.skip 1) fun _ => h.pure _
  | .scalar name =>
    exact h.bind (h.skip 1) fun _ => h.look (fun _ _ => rfl) fun _ _ => h.pure _
  | .paren e close =>
    rw [evalWith, Expr.width]
    exact h.bind (h.skip 1) fun _ => h.bind (h.expr hbody e) fun v =>
      h.bind (l := 0) (h.takeClosing close) fun _ => h.pure v
  | .unary op e =>
    rw [evalWith, Expr.width]
    exact h.bind (h.skip 1) fun _ => h.bind (l := 0) (h.expr hbody e) fun v =>
      h.ofExcept (op.failsInExpression v)
  | .binary op left right =>
    rw [evalWith, Expr.width]
    exact h.bind (h.expr hbody left) fun v => h.bind (h.skip 1) fun _ =>
      h.bind (l := 0) (h.expr hbody right) fun w => h.ofExcept (op.failsInExpression v w)
  | .call name args =>
    rw [evalWith, Expr.width]
    refine h.bind (h.skip 2) fun _ => ?_
    split
    · exact h.bind (l := 0) (h.arguments hbody args) fun vs => h.applyBuiltin _ vs
    · refine h.look (fun _ _ => rfl) fun m hm => ?_
      split
      · next f hf =>
        exact h.bind (l := 0) (h.bound hbody args f.firstParam f.otherParams ∅) fun params =>
          hbody m name f params hm hf
      · refine h.bind (l := 0) (h.arguments hbody args) fun vs => ?_
        refine h.bind (l := 0) (h.ofExcept (failsInExpression_indices vs)) fun index => ?_
        exact h.bind (l := 0) (h.arrayFor name _) fun g =>
          h.ofExcept (g.failsInExpression_get index)
  | .missing => exact h.throw _ rfl
  | .misplaced t => exact h.bind (l := 0) (h.skip 1) fun _ => h.throw 0 rfl

/-- So does an argument list. -/
theorem arguments (h : EvalRules I P) (hbody : Calls I P body) (args : Arguments) :
    P (List Value) args.width (evalArguments body args) := by
  match args with
  | .last e close =>
    rw [evalArguments, Arguments.width]
    exact h.bind (h.expr hbody e) fun v =>
      h.bind (l := 0) (h.takeClosing close) fun _ => h.pure _
  | .more e rest =>
    rw [evalArguments, Arguments.width]
    exact h.bind (h.expr hbody e) fun v => h.bind (h.skip 1) fun _ =>
      h.bind (l := 0) (h.arguments hbody rest) fun vs => h.pure _

/-- So does an argument list that is bound to parameters, which may end early. -/
theorem bound (h : EvalRules I P) (hbody : Calls I P body) (args : Arguments) (p : Name)
    (ps : List Name) (params : Bindings) :
    P Bindings args.width (bindArguments body p ps args params) := by
  match args with
  | .last e close =>
    rw [bindArguments, Arguments.width]
    refine h.bind (h.expr hbody e) fun v => ?_
    rw [← Nat.zero_add close.width]
    refine h.bind (h.checkFits p v) fun _ => ?_
    split
    · exact h.bind (l := 0) (h.takeClosing close) fun _ => h.pure _
    · exact h.throw _ rfl
    · exact h.throw _ rfl
  | .more e rest =>
    rw [bindArguments, Arguments.width]
    refine h.bind (h.expr hbody e) fun v => ?_
    rw [← Nat.zero_add (1 + rest.width)]
    refine h.bind (h.checkFits p v) fun _ => ?_
    split
    · exact h.throw _ rfl
    · exact h.bind (h.skip 1) fun _ => h.bound hbody rest _ _ _

end

end EvalRules

/-! ### Calls -/

/-- A property of actions that has nothing to do with the number of tokens. It goes from the parts
of an evaluation to the whole, and functions can be entered and left with it. -/
structure CallRules (I : Machine → Prop) (P : (α : Type) → Eval α → Prop) : Prop
    extends EvalRules I fun α _ => P α where
  enter : ∀ {m : Machine} {name : Name} {f : Function} (params : Bindings), I m →
    m.functions[name]? = some f → P Unit (onProgram (Program.pushFunction params f.body))
  inFunction : ∀ {α : Type} {x : Eval α}, P α x → P α (Machine.inFunction x)

namespace CallRules

variable {α β : Type} {I : Machine → Prop} {P : (α : Type) → Eval α → Prop}

theorem andThen (h : CallRules I P) {x : Eval α} {f : α → Eval β} (hx : P α x)
    (hf : ∀ a, P β (f a)) : P β (x >>= f) :=
  h.bind (k := 0) (l := 0) hx hf

theorem calls (h : CallRules I P) {body : Name → Eval Value} (hbody : ∀ name, P Value (body name)) :
    EvalRules.Calls I (fun α _ => P α) body :=
  fun _ name _ params hm hf => h.andThen (h.enter params hm hf) fun _ => hbody name

/-- Calls have the property, however deeply they nest. -/
theorem bodyAt (h : CallRules I P) (depth : Nat) (name : Name) :
    P Value (Machine.bodyAt depth name) := by
  induction depth generalizing name with
  | zero => exact h.throw 0 rfl
  | succ depth ih =>
    refine h.inFunction (h.andThen ?_ fun v => ?_)
    · exact h.look (k := 0) (fun _ _ => rfl) fun _ _ => h.expr (h.calls ih) _
    · refine h.look (k := 0) (fun _ _ => rfl) fun m _ => ?_
      dsimp only
      split
      · exact h.throw 0 rfl
      · exact h.andThen (h.checkFits name v) fun _ => h.pure v

/-! ### Evaluation at the location -/

theorem expression (h : CallRules I P) : P Value Machine.expression :=
  h.look (k := 0) (fun _ _ => rfl) fun m _ => h.expr (h.calls (h.bodyAt m.callsLeft)) _

theorem numberExpression (h : CallRules I P) : P Float Machine.numberExpression :=
  h.andThen h.expression fun v => h.ofExcept v.failsInExpression_number

theorem subscripts (h : CallRules I P) : P (List Int) Machine.subscripts :=
  h.look (k := 0) (fun _ _ => rfl) fun m _ =>
    h.andThen (h.arguments (h.calls (h.bodyAt m.callsLeft)) _) fun vs =>
      h.ofExcept (failsInExpression_indices vs)

/-- A value is checked before it is stored. -/
theorem assign (h : CallRules I P) (hset : ∀ name v, P Unit (setVariable name v))
    (harray : ∀ (name : Name) (g : Grid),
      P Unit (modify fun m => { m with arrays := m.arrays.insert name g }))
    (t : Target) (v : Value) : P Unit (Machine.assign t v) := by
  refine h.andThen (h.checkFits t.name v) fun _ => ?_
  cases t with
  | scalar name => exact hset name v
  | element name index =>
    refine h.andThen (h.arrayFor name index.length) fun g => ?_
    exact h.andThen (h.ofExcept (g.failsInExpression_set index v)) fun g' => harray name g'

/-- A target, given its name and whether subscripts follow. -/
theorem target (h : CallRules I P) (hname : P Name (onProgram Program.nextName))
    (haccept : P Bool (onProgram (Program.accept (.mark .lparen)))) :
    P Target Machine.target := by
  refine h.andThen hname fun name => h.andThen haccept fun found => ?_
  cases found with
  | true => exact h.andThen h.subscripts fun _ => h.pure _
  | false => exact h.pure _

end CallRules

end LineBasic
