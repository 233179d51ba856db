import LineBasic.Proofs.Expr.Refinement
import LineBasic.Proofs.Machine.Consistency
import LineBasic.Proofs.Machine.Typing

/-!
# The states that a step goes through

Between the start of a step and its end the machine goes through states that no host sees: in front
of each operand and behind it, inside a function whose call is pending, between two targets of a
`READ`. This module says which states those are. The parts of an expression are followed from left
to right, as they are evaluated, and each statement says which of its parts it evaluates where.

What is stored under a name has the type that the name says in all these states as well.

## Main definitions

* `Phrase` — what is evaluated as one part of an expression
* `Machine.Passes` — the states in the middle of the evaluation of a phrase
* `Machine.Amid` — the states in the middle of a statement
* `Machine.ComesBy` — the states of a step, and the one between two steps

## Main results

* `Machine.Passes.typed` — evaluation is typed throughout
* `Machine.names_decide_types` — in every reachable machine, and in the middle of each of its steps,
  names decide types
-/

namespace LineBasic

/-- What is evaluated as one part of an expression: an expression, an argument list, or an argument
list that is bound to parameters, after some were bound already. -/
inductive Phrase where
  | value (e : Expr)
  | values (args : Arguments)
  | bindings (p : Name) (ps : List Name) (args : Arguments) (bound : Bindings)

/-- The parameters that were bound already are typed. -/
def Phrase.Typed : Phrase → Prop
  | .value _ | .values _ => True
  | .bindings _ _ _ bound => bound.Typed

namespace Machine

/-- The evaluation of a phrase, whatever it yields, when calls nest at most `depth` deep. -/
def evalPhrase (depth : Nat) : Phrase → Eval Unit
  | .value e => discard (evalWith (bodyAt depth) e)
  | .values args => discard (evalArguments (bodyAt depth) args)
  | .bindings p ps args bound => discard (bindArguments (bodyAt depth) p ps args bound)

/-- Evaluation of a phrase from `m` passes through `s`, when calls nest at most `depth` deep. -/
inductive Passes : (depth : Nat) → Phrase → (m s : Machine) → Prop where
  /-- At its start. -/
  | start (depth : Nat) (phrase : Phrase) (m : Machine) : Passes depth phrase m m
  /-- At its end. -/
  | done {depth : Nat} {phrase : Phrase} {m s : Machine}
      (hend : evalPhrase depth phrase m = .ok () s) : Passes depth phrase m s
  /-- Where it has failed. -/
  | failed {depth : Nat} {phrase : Phrase} {m s : Machine} {c : Cause}
      (hend : evalPhrase depth phrase m = .error c s) : Passes depth phrase m s
  /-- Inside parentheses. -/
  | paren {depth : Nat} {e : Expr} {m s : Machine} (close : Closing)
      (h : Passes depth (.value e) m.past s) : Passes depth (.value (.paren e close)) m s
  /-- Behind an operator in front of an operand. -/
  | operand {depth : Nat} {e : Expr} {m s : Machine} (op : UnaryOp)
      (h : Passes depth (.value e) m.past s) : Passes depth (.value (.unary op e)) m s
  /-- In the left operand. -/
  | left {depth : Nat} {l : Expr} {m s : Machine} (op : BinaryOp) (r : Expr)
      (h : Passes depth (.value l) m s) : Passes depth (.value (.binary op l r)) m s
  /-- In the right operand, behind the operator. -/
  | right {depth : Nat} {l r : Expr} {m m₁ s : Machine} {v : Value} (op : BinaryOp)
      (hleft : evalWith (bodyAt depth) l m = .ok v m₁)
      (h : Passes depth (.value r) m₁.past s) : Passes depth (.value (.binary op l r)) m s
  /-- In the arguments of a built-in function or the subscripts of an array. -/
  | arguments {depth : Nat} {name : Name} {args : Arguments} {m s : Machine}
      (hname : Builtin.find? name ≠ none ∨ m.functions[name]? = none)
      (h : Passes depth (.values args) m.past.past s) : Passes depth (.value (.call name args)) m s
  /-- In the arguments of a user function. -/
  | parameters {depth : Nat} {name : Name} {args : Arguments} {m s : Machine} {f : Function}
      (hname : Builtin.find? name = none) (hfunction : m.functions[name]? = some f)
      (h : Passes depth (.bindings f.firstParam f.otherParams args ∅) m.past.past s) :
      Passes depth (.value (.call name args)) m s
  /-- Inside a user function, where one call less may nest. -/
  | body {depth : Nat} {name : Name} {args : Arguments} {m m₁ m₂ s : Machine} {f : Function}
      {params : Bindings} (hname : Builtin.find? name = none)
      (hfunction : m.functions[name]? = some f)
      (hparams : bindArguments (bodyAt (depth + 1)) f.firstParam f.otherParams args ∅ m.past.past =
        .ok params m₁)
      (hcall : onProgram (Program.pushFunction params f.body) m₁ = .ok () m₂)
      (h : Passes depth (.value (Expr.read m₂.program.rest)) m₂ s) :
      Passes (depth + 1) (.value (.call name args)) m s
  /-- In the last argument. -/
  | last {depth : Nat} {e : Expr} {m s : Machine} (close : Closing)
      (h : Passes depth (.value e) m s) : Passes depth (.values (.last e close)) m s
  /-- In an argument that a comma follows. -/
  | first {depth : Nat} {e : Expr} {m s : Machine} (rest : Arguments)
      (h : Passes depth (.value e) m s) : Passes depth (.values (.more e rest)) m s
  /-- In the arguments behind the comma. -/
  | others {depth : Nat} {e : Expr} {rest : Arguments} {m m₁ s : Machine} {v : Value}
      (hfirst : evalWith (bodyAt depth) e m = .ok v m₁)
      (h : Passes depth (.values rest) m₁.past s) : Passes depth (.values (.more e rest)) m s
  /-- In the last argument that is bound. -/
  | lastBound {depth : Nat} {e : Expr} {m s : Machine} (p : Name) (ps : List Name)
      (close : Closing) (bound : Bindings) (h : Passes depth (.value e) m s) :
      Passes depth (.bindings p ps (.last e close) bound) m s
  /-- In an argument that is bound and that a comma follows. -/
  | firstBound {depth : Nat} {e : Expr} {m s : Machine} (p : Name) (ps : List Name)
      (rest : Arguments) (bound : Bindings) (h : Passes depth (.value e) m s) :
      Passes depth (.bindings p ps (.more e rest) bound) m s
  /-- In the arguments behind the comma, after one more was bound. -/
  | othersBound {depth : Nat} {e : Expr} {rest : Arguments} {m m₁ s : Machine} {v : Value}
      {p q : Name} {qs : List Name} {bound : Bindings}
      (hfirst : evalWith (bodyAt depth) e m = .ok v m₁) (hfits : v.fits p = true)
      (h : Passes depth (.bindings q qs rest (bound.insert p v)) m₁.past s) :
      Passes depth (.bindings p (q :: qs) (.more e rest) bound) m s

variable {m n s : Machine}

theorem Typed.past (h : m.Typed) : m.past.Typed :=
  h.congr rfl (List.Subset.refl _) rfl

section

variable {ε α : Type} {x : EStateM ε Machine α} {B : ε → Prop}

theorem Typed.of_ok (h : m.Typed) (hx : Keeps Typed B x) {a : α} (hend : x m = .ok a s) :
    s.Typed := by
  have hs := hx m h
  rw [hend] at hs
  exact hs

theorem Typed.of_error (h : m.Typed) (hx : Keeps Typed B x) {e : ε} (hend : x m = .error e s) :
    s.Typed := by
  have hs := hx m h
  rw [hend] at hs
  exact hs.1

/-- What is known of a result, and the machine that is left behind. -/
theorem Typed.of_yields (h : m.Typed) {Q : α → Prop} (hx : Yields Typed B Q x) {a : α}
    (hend : x m = .ok a s) : s.Typed ∧ Q a := by
  have hs := hx m h
  rw [hend] at hs
  exact hs

end

theorem keepsTyped_evalWith (depth : Nat) (e : Expr) :
    Keeps Typed Cause.Unnamed (evalWith (bodyAt depth) e) :=
  (yields_evalWith (bodiesFit_bodyAt depth) e).keeps

theorem keepsTyped_evalPhrase (depth : Nat) {phrase : Phrase} (hphrase : phrase.Typed) :
    Keeps Typed Cause.Unnamed (evalPhrase depth phrase) := by
  have hbody := bodiesFit_bodyAt depth
  cases phrase with
  | value e => exact (keepsTyped_evalWith depth e).bind fun _ => .pure ()
  | values args => exact (keepsTyped_evalArguments hbody args).bind fun _ => .pure ()
  | bindings p ps args bound =>
    exact (yields_bindArguments hbody args p ps bound hphrase).keeps.bind fun _ => .pure ()

/-- Evaluation is typed throughout, by following the parts of an expression. -/
theorem Passes.typed {depth : Nat} {phrase : Phrase} (h : Passes depth phrase m s) (hm : m.Typed)
    (hphrase : phrase.Typed) : s.Typed := by
  induction h with
  | start => exact hm
  | done hend => exact hm.of_ok (keepsTyped_evalPhrase _ hphrase) hend
  | failed hend => exact hm.of_error (keepsTyped_evalPhrase _ hphrase) hend
  | paren _ _ ih => exact ih hm.past trivial
  | operand _ _ ih => exact ih hm.past trivial
  | left _ _ _ ih => exact ih hm trivial
  | right _ hleft _ ih => exact ih (hm.of_ok (keepsTyped_evalWith _ _) hleft).past trivial
  | arguments _ _ ih => exact ih hm.past.past trivial
  | parameters _ _ _ ih => exact ih hm.past.past Bindings.typed_empty
  | body _ _ hparams hcall _ ih =>
    obtain ⟨hbound, hfit⟩ := hm.past.past.of_yields
      (yields_bindArguments (bodiesFit_bodyAt _) _ _ _ ∅ Bindings.typed_empty) hparams
    exact ih (hbound.of_ok (keepsTyped_onProgram (Program.keepsTyped_pushFunction hfit _)) hcall)
      trivial
  | last _ _ ih => exact ih hm trivial
  | first _ _ ih => exact ih hm trivial
  | others hfirst _ ih => exact ih (hm.of_ok (keepsTyped_evalWith _ _) hfirst).past trivial
  | lastBound _ _ _ _ _ ih => exact ih hm trivial
  | firstBound _ _ _ _ _ ih => exact ih hm trivial
  | othersBound hfirst hfits _ ih =>
    exact ih (hm.of_ok (keepsTyped_evalWith _ _) hfirst).past
      (Bindings.Typed.insert hphrase hfits)

/-! ### Parts of statements -/

/-- In the middle of the expression at the location. -/
def InExpression (m s : Machine) : Prop :=
  Passes m.callsLeft (.value (Expr.read m.program.rest)) m s

/-- In the middle of the subscripts at the location. -/
def InSubscripts (m s : Machine) : Prop :=
  Passes m.callsLeft (.values (Arguments.read m.program.rest).phrase) m s

/-- Where `P` leads to after an action that has succeeded. -/
def After {α : Type} (x : Exec α) (P : Machine → Machine → Prop) (m s : Machine) : Prop :=
  ∃ a m', x m = .ok a m' ∧ P m' s

/-- In the middle of the subscripts that stand behind a name. -/
def InSubscripted : Machine → Machine → Prop :=
  After (do
    let _ ← nextName
    expect (.mark .lparen)) InSubscripts

/-- In the middle of one of several numbers, with the given tokens between them. -/
def InNumbers : List Token.Kind → Machine → Machine → Prop
  | [], m, s => m.InExpression s
  | k :: ks, m, s =>
    m.InExpression s ∨
      After (do
        let _ ← numberExpression
        expect k) (InNumbers ks) m s

/-- In the middle of an assignment: in the subscripts of its target or in its value. -/
def InAssignment (m s : Machine) : Prop :=
  m.InSubscripted s ∨
    After (do
      let _ ← target
      expect (.mark .equal)) InExpression m s

/-- What a `FOR` reads in front of its numbers. -/
def loopHead : Exec Unit := do
  let name ← nextName
  if name.isString then fail .typeMismatch
  expect (.mark .equal)

/-- A separator of a `PRINT` is at the location. -/
def AtSeparator (m : Machine) : Prop :=
  m.program.peek? = some (.mark .comma) ∨ m.program.peek? = some (.mark .semicolon)

/-- In the middle of the items of a `PRINT`. -/
inductive InPrint : (m s : Machine) → Prop where
  | value {m s : Machine} (hend : m.program.atStatementEnd = false) (hvalue : ¬m.AtSeparator)
      (h : m.InExpression s) : InPrint m s
  | separator {m s : Machine} (hseparator : m.AtSeparator) (h : InPrint m.past s) : InPrint m s
  | later {m m₁ s : Machine} {v : Value} (hend : m.program.atStatementEnd = false)
      (hvalue : ¬m.AtSeparator) (hitem : expression m = .ok v m₁) (h : InPrint m₁ s) : InPrint m s

/-- In the middle of the items of a list, when `P` says what is in the middle of one item. -/
inductive InItems (item : Exec Bool) (P : Machine → Machine → Prop) : (m s : Machine) → Prop where
  | start (m : Machine) : InItems item P m m
  | here {m s : Machine} (h : P m s) : InItems item P m s
  | later {m m₁ m₂ s : Machine} (hitem : item m = .ok true m₁)
      (hcomma : accept (.mark .comma) m₁ = .ok true m₂) (h : InItems item P m₂ s) :
      InItems item P m s

/-! ### Statements and steps -/

/-- The statement at the location of `n` passes through `s`. -/
inductive Amid : (n s : Machine) → Prop where
  | start (n : Machine) : Amid n n
  | condition {n s : Machine} (hkeyword : n.program.peek? = some (.keyword .IF))
      (h : n.past.InExpression s) : Amid n s
  | branch {n n' s : Machine} (hkeyword : n.program.peek? = some (.keyword .IF))
      (hchoice : chooseBranch n.past = .ok true n') (h : Amid n' s) : Amid n s
  | assignment {n s : Machine} {name : Name} (hname : n.program.peek? = some (.symbol name))
      (h : n.InAssignment s) : Amid n s
  | letKeyword {n s : Machine} (hkeyword : n.program.peek? = some (.keyword .LET))
      (h : n.past.InAssignment s) : Amid n s
  | dim {n s : Machine} (hkeyword : n.program.peek? = some (.keyword .DIM))
      (hitems : n.past.program.atStatementEnd = false)
      (h : InItems dimItem InSubscripted n.past s) : Amid n s
  | print {n s : Machine}
      (hkeyword : n.program.peek? = some (.keyword .PRINT) ∨
        n.program.peek? = some (.mark .question))
      (h : n.past.InPrint s) : Amid n s
  | input {n s : Machine} (hkeyword : n.program.peek? = some (.keyword .INPUT))
      (h : After promptText InSubscripted n.past s) : Amid n s
  | jump {n s : Machine}
      (hkeyword : n.program.peek? = some (.keyword .GOTO) ∨
        n.program.peek? = some (.keyword .GOSUB))
      (h : n.past.InExpression s) : Amid n s
  | loop {n s : Machine} (hkeyword : n.program.peek? = some (.keyword .FOR))
      (h : After loopHead (InNumbers [.keyword .TO, .keyword .STEP]) n.past s) : Amid n s
  | next {n s : Machine} (hkeyword : n.program.peek? = some (.keyword .NEXT))
      (hitems : n.past.program.atStatementEnd = false)
      (h : InItems nextItem (fun _ _ => False) n.past s) : Amid n s
  | read {n s : Machine} (hkeyword : n.program.peek? = some (.keyword .READ))
      (h : InItems readItem InSubscripted n.past s) : Amid n s

/-- `m` is in the state `s` now or in the middle of its next step. -/
inductive ComesBy (m : Machine) : (s : Machine) → Prop where
  | now : ComesBy m m
  | amid {n s : Machine} (hrunning : m.state = .running) (hnext : m.upcoming? = some n)
      (h : n.Amid s) : ComesBy m s

namespace Typed

theorem inExpression (h : m.Typed) (hs : m.InExpression s) : s.Typed :=
  Passes.typed hs h trivial

theorem inSubscripts (h : m.Typed) (hs : m.InSubscripts s) : s.Typed :=
  Passes.typed hs h trivial

theorem after {α : Type} {x : Exec α} {P : Machine → Machine → Prop} {B : Stop → Prop}
    (h : m.Typed) (hx : Keeps Typed B x) (hP : ∀ {m s}, Typed m → P m s → s.Typed)
    (hs : After x P m s) : s.Typed := by
  obtain ⟨a, m', hend, hs⟩ := hs
  exact hP (h.of_ok hx hend) hs

theorem inSubscripted (h : m.Typed) (hs : m.InSubscripted s) : s.Typed :=
  h.after (keepsTyped_nextName.bind fun _ => keepsTyped_expect _)
    inSubscripts hs

theorem inNumbers (ks : List Token.Kind) (h : m.Typed) (hs : InNumbers ks m s) : s.Typed := by
  induction ks generalizing m s with
  | nil => exact h.inExpression hs
  | cons k ks ih =>
    rcases hs with hs | hs
    · exact h.inExpression hs
    · exact h.after ((keepsTyped_ofEval keepsTyped_numberExpression).bind fun _ =>
        keepsTyped_expect k) (fun h hs => ih h hs) hs

theorem inAssignment (h : m.Typed) (hs : m.InAssignment s) : s.Typed := by
  rcases hs with hs | hs
  · exact h.inSubscripted hs
  · exact h.after ((keepsTyped_ofEval keepsTyped_target).bind fun _ => keepsTyped_expect _)
      inExpression hs

theorem inPrint (h : m.Typed) (hs : m.InPrint s) : s.Typed := by
  induction hs with
  | value _ _ hs => exact h.inExpression hs
  | separator _ _ ih => exact ih h.past
  | later _ _ hitem _ ih => exact ih (h.of_ok keepsTyped_expression hitem)

theorem inItems {item : Exec Bool} {P : Machine → Machine → Prop} {B : Stop → Prop}
    (h : m.Typed) (hitem : Keeps Typed B item) (hP : ∀ {m s}, Typed m → P m s → s.Typed)
    (hs : InItems item P m s) : s.Typed := by
  induction hs with
  | start => exact h
  | here hs => exact hP h hs
  | later hend hcomma _ ih =>
    exact ih ((h.of_ok hitem hend).of_ok (keepsTyped_accept _) hcomma)

end Typed

theorem keepsTyped_loopHead : Keeps Typed Stop.Unnamed loopHead := by
  refine keepsTyped_nextName.bind fun name => ?_
  dsimp only
  split
  · exact .bind (keepsTyped_fail rfl) fun _ => keepsTyped_expect _
  · exact keepsTyped_expect _

/-- A statement is typed throughout, by following it into the branches of an `IF`. -/
theorem Amid.typed (h : n.Amid s) (hn : n.Typed) : s.Typed := by
  induction h with
  | start => exact hn
  | condition _ hs => exact hn.past.inExpression hs
  | branch _ hchoice _ ih => exact ih (hn.past.of_ok keepsTyped_chooseBranch hchoice)
  | assignment _ hs => exact hn.inAssignment hs
  | letKeyword _ hs => exact hn.past.inAssignment hs
  | dim _ _ hs => exact hn.past.inItems keepsTyped_dimItem Typed.inSubscripted hs
  | print _ hs => exact hn.past.inPrint hs
  | input _ hs => exact hn.past.after keepsTyped_parts.promptText Typed.inSubscripted hs
  | jump _ hs => exact hn.past.inExpression hs
  | loop _ hs => exact hn.past.after keepsTyped_loopHead (Typed.inNumbers _) hs
  | next _ _ hs => exact hn.past.inItems keepsTyped_nextItem (fun _ h => h.elim) hs
  | read _ hs => exact hn.past.inItems keepsTyped_readItem Typed.inSubscripted hs

theorem ComesBy.typed (h : m.ComesBy s) (hm : m.Typed) : s.Typed := by
  cases h with
  | now => exact hm
  | amid _ hnext hs => exact hs.typed (hm.upcoming? hnext)

/-- In every machine that a host can bring about, and wherever its next step is, even inside a
function: variables, arguments of pending calls, arrays and all their elements are strings if their
name ends in `$` and numbers if it does not. So what a name is looked up to, an element of an array
and the value of a call have the type that the name says. -/
theorem names_decide_types {o : Options} (h : Reachable o m) (hs : m.ComesBy s) :
    (∀ (name : Name) (v : Value), s.scalars[name]? = some v → v.isString = name.isString) ∧
      (∀ f ∈ s.program.calls, ∀ (name : Name) (v : Value), f.params[name]? = some v →
        v.isString = name.isString) ∧
      (∀ (name : Name) (g : Grid), s.arrays[name]? = some g → g.strings = name.isString ∧
        (∀ (place : Nat) (v : Value), g.cells[place]? = some v → v.isString = name.isString) ∧
        ∀ (index : List Int) (v : Value), g.get index = .ok v → v.isString = name.isString) ∧
      (∀ name : Name, (s.lookup name).isString = name.isString) ∧
      ∀ (depth : Nat) (name : Name) (args : Arguments) (v : Value) (s' : Machine),
        evalWith (bodyAt depth) (.call name args) s = .ok v s' → v.isString = name.isString := by
  have htyped := hs.typed h.typed
  refine ⟨fun name v hv => Value.fits_iff.mp (htyped.scalars name v hv),
    fun f hf name v hv => Value.fits_iff.mp (htyped.program f hf name v hv),
    fun name g hg => ?_, fun name => Value.fits_iff.mp (htyped.lookup name), ?_⟩
  · have hgrid := htyped.arrays name g hg
    exact ⟨hgrid.strings, fun place v hv => (hgrid.cells place v hv).trans hgrid.strings,
      fun index v hv => Value.fits_iff.mp (hgrid.gives_get index v hv)⟩
  · intro depth name args v s' hend
    exact Value.fits_iff.mp
      ((htyped.of_yields (yields_evalWith (bodiesFit_bodyAt depth) _) hend).2 name rfl)

/-! ### Inside a function -/

/-- The call of a function on a string passes through the machine inside the function. -/
theorem inExpression_inside {name p : Name} {text : Bytes} {tail : List Token} {body : Location}
    {tokens : List Token} {depth : Nat} (hname : Builtin.find? name = none)
    (hfunction : m.functions[name]? = some ⟨p, [], body⟩) (hfits : p.isString = true)
    (hrest : m.program.rest = [.symbol name, .mark .lparen, .string text, .mark .rparen] ++ tail)
    (hends : ∀ t ∈ tail.head?, BinaryOp.ofToken? t = none)
    (hdepth : m.callsLeft = depth + 1) (htokens : m.program.tokensOf? body.line = some tokens)
    (hindex : body.index ≤ tokens.length) :
    ∃ s, m.InExpression s ∧ s.program.calls.length = m.program.calls.length + 1 ∧
      s.lookup p = .str text := by
  have hread : Expr.read m.program.rest = .call name (.last (.string text) .closed) := by
    rw [hrest]
    refine Tree.read_tokens (t := .call name (.last (.string text))) fun t ht => ⟨hends t ht, ?_⟩
    intro _ name
    simp [Tree.tokens, Tree.tokensAt, Trees.tokens]
  have hbound : bindArguments (bodyAt (depth + 1)) p [] (.last (.string text) .closed) ∅
      m.past.past = .ok ((∅ : Bindings).insert p (.str text)) m.past.past.past.past := by
    have hcheck : checkFits p (.str text) = pure () := by
      rw [checkFits, if_pos (Value.fits_str hfits text)]
    simp only [bindArguments, evalWith, bind_assoc, pure_bind, hcheck]
    rfl
  -- taking the arguments does not change how deep calls nest, or what is stored
  have hdepth' : m.past.past.past.past.callsLeft = depth + 1 := by
    rw [callsLeft] at hdepth ⊢
    exact hdepth
  have hcall := pushFunction_inside hdepth' ((∅ : Bindings).insert p (.str text))
    ((Program.tokensOf?_congr rfl rfl _).trans htokens) hindex
  refine ⟨m.past.past.past.past.inside ((∅ : Bindings).insert p (.str text)) body tokens,
    ?_, rfl, ?_⟩
  · rw [InExpression, hread, hdepth]
    exact .body hname hfunction hbound hcall (.start _ _ _)
  · rw [inside_lookup]
    simp

/-- Here a `PRINT` is inside a function of strings, and its argument is bound. -/
theorem names_decide_types_inside :
    ∃ m s, Reachable {} m ∧ m.ComesBy s ∧ s.program.calls.length = 1 ∧
      s.lookup (utf8 "X$") = .str (utf8 "A") ∧
      ∀ name : Name, (s.lookup name).isString = name.isString := by
  have h : Reachable {} ((((new {}).perform
      (.submit (utf8 "10 DEF FNA$(X$)=X$:PRINT FNA$(\"A\")"))).perform
        (.submit (utf8 "RUN"))).perform .step) := .perform _ (.perform _ (.perform _ .start))
  have hread : (Token.read (Bytes.trimLineEnds
      (utf8 "10 DEF FNA$(X$)=X$:PRINT FNA$(\"A\")"))).map numbered? =
      .ok (some (10, [.keyword .DEF, .symbol (utf8 "FNA$"), .mark .lparen, .symbol (utf8 "X$"),
        .mark .rparen, .mark .equal, .symbol (utf8 "X$"), .mark .colon, .keyword .PRINT,
        .symbol (utf8 "FNA$"), .mark .lparen, .string (utf8 "A"), .mark .rparen])) := by
    decide +kernel
  rw [perform_numbered (by decide +kernel) (by decide +kernel) hread,
    perform_run (by decide +kernel) (startAtFirst?_singleton rfl)] at h
  generalize hm : Machine.perform _ .step = m at h
  have hkeyword : m.program.peek? = some (.keyword .PRINT) := by
    subst hm
    decide +kernel
  have hnext : m.upcoming? = some m.announce.atStatement := by
    rw [upcoming?, toStatement?_eq hkeyword]
    rfl
  have hfunction : m.announce.atStatement.past.functions[utf8 "FNA$"]? =
      some ⟨utf8 "X$", [], ⟨.numbered 10, 6⟩⟩ := by
    subst hm
    decide +kernel
  have hrest : m.announce.atStatement.past.program.rest =
      [.symbol (utf8 "FNA$"), .mark .lparen, .string (utf8 "A"), .mark .rparen] ++ [] := by
    subst hm
    decide +kernel
  have hdepth : m.announce.atStatement.past.callsLeft = 255 + 1 := by
    subst hm
    decide +kernel
  have htokens : m.announce.atStatement.past.program.tokensOf? (.numbered 10) =
      some m.program.current := by
    subst hm
    rfl
  obtain ⟨s, hs, hcalls, hlookup⟩ := inExpression_inside (by decide +kernel) hfunction
    (by decide +kernel) hrest nofun hdepth htokens (by subst hm; decide +kernel)
  have hcomes : m.ComesBy s := by
    refine .amid (by subst hm; decide +kernel) hnext (.print (.inl ?_) (.value ?_ ?_ hs))
    · subst hm; decide +kernel
    · subst hm; decide +kernel
    · have hpeek : m.announce.atStatement.past.program.peek? = some (.symbol (utf8 "FNA$")) := by
        subst hm
        decide +kernel
      rintro (hseparator | hseparator) <;> rw [hpeek] at hseparator <;> cases hseparator
  refine ⟨m, s, h, hcomes, ?_, hlookup, (names_decide_types h hcomes).2.2.2.1⟩
  rw [hcalls]
  subst hm
  decide +kernel

end Machine

end LineBasic
