import LineBasic.Proofs.Expr.Reading
import LineBasic.Proofs.Expr.Width
import LineBasic.Proofs.Machine.Balance
import LineBasic.Proofs.Machine.Unbounded

/-!
# Evaluation ends

Evaluation without bounds starts again at the body of a function, which may be longer than the rest
of the line that calls it, and the body may call the same function again. It ends all the same,
because two numbers together go down: the number of calls that may still be pending, and the number
of tokens that are left on the line. A call makes the first one smaller, whatever happens to the
second; everything else takes a token and leaves the first one as it is. After a call, evaluation
goes on with the tokens behind it, because the call comes back to its place.

## Main definitions

* `Machine.Placed` — a machine on which an expression can be evaluated

## Main results

* `Unbounded.value_eq`, `Unbounded.arguments_eq` — evaluation without bounds ends, as the evaluation
  of what was read
-/

namespace LineBasic

variable {ε α β : Type} {F : Std.ExtTreeMap Name Function} {d : Nat} {m m₁ m₂ : Machine}

namespace Machine

/-- A machine on which an expression can be evaluated, with `d` calls that may nest. -/
structure Placed (F : Std.ExtTreeMap Name Function) (d : Nat) (m : Machine) : Prop where
  fit : m.Fit F d
  index : m.program.location.index ≤ m.program.current.length

namespace Placed

/-- Behind a phrase that was evaluated, the tokens behind it are left. -/
theorem walks (h : m.Placed F d) {k : Nat} {x : Eval α} (hx : Walks F d k x)
    (hk : k ≤ m.program.rest.length) {a : α} (hend : x m = .ok a m₁) :
    m₁.Placed F d ∧ m₁.program.rest = m.program.rest.drop k := by
  have hlength := Program.length_rest m.program
  have hindex := h.index
  obtain ⟨hwalked, hmoved⟩ := (hx m h.fit (by omega)).of_ok hend
  refine ⟨⟨hwalked.fit h.fit, hwalked.current ▸ hwalked.within⟩, ?_⟩
  rw [Program.rest, Program.rest, hwalked.current, hmoved, List.drop_drop]

/-- Behind an expression that has a value, fewer tokens are left. -/
theorem evaluated (h : m.Placed F d) {e : Expr} {rest : List Token}
    (hbehind : LeftBehind m.program.rest e.width rest) {v : Value}
    (hend : evalWith (bodyAt d) e m = .ok v m₁) :
    m₁.Placed F d ∧ m₁.program.rest = rest ∧
      m₁.program.rest.length < m.program.rest.length := by
  have hwidth := hbehind.length
  have hpos := width_pos_of_evalWith hend
  obtain ⟨hm₁, hrest⟩ := h.walks (Walks.expr (returns_bodyAt d) _) (by omega) hend
  rw [← hbehind.eq_drop] at hrest
  refine ⟨hm₁, hrest, ?_⟩
  rw [hrest]
  omega

theorem value (h : m.Placed F d) {level : Nat} {v : Value}
    (hend : evalWith (bodyAt d) (Expr.readAt level m.program.rest).phrase m = .ok v m₁) :
    m₁.Placed F d ∧ m₁.program.rest = (Expr.readAt level m.program.rest).rest ∧
      m₁.program.rest.length < m.program.rest.length :=
  h.evaluated (Expr.behind_readAt level m.program.rest) hend

theorem operand (h : m.Placed F d) {v : Value}
    (hend : evalWith (bodyAt d) (Expr.readOperand m.program.rest).phrase m = .ok v m₁) :
    m₁.Placed F d ∧ m₁.program.rest = (Expr.readOperand m.program.rest).rest ∧
      m₁.program.rest.length < m.program.rest.length :=
  h.evaluated (Expr.behind_readOperand m.program.rest) hend

/-- Behind a token. -/
theorem past (h : m.Placed F d) {t : Token} {ts : List Token} (hrest : m.program.rest = t :: ts) :
    m.past.Placed F d ∧ m.past.program.rest = ts ∧
      m.past.program.rest.length < m.program.rest.length := by
  obtain ⟨hpast, hts⟩ := h.walks (Walks.skip 1) (by simp [hrest])
    (show skip 1 m = .ok () m.past from rfl)
  rw [hrest, List.drop_succ_cons, List.drop_zero] at hts
  refine ⟨hpast, hts, ?_⟩
  rw [hts, hrest]
  exact Nat.lt_succ_self _

/-- Inside a function. -/
theorem inside (h : m.Placed F (d + 1)) {body : Location} {tokens : List Token}
    (htokens : m.program.tokensOf? body.line = some tokens) (hindex : body.index ≤ tokens.length)
    (params : Bindings) : (m.inside params body tokens).Placed F d :=
  ⟨⟨h.fit.functions, htokens, h.fit.bodies, callsLeft_inside h.fit.callsLeft _ _ _⟩, hindex⟩

end Placed

end Machine

theorem Expr.phrase_readOperand_unary {t : Token} {op : UnaryOp} (h : UnaryOp.ofToken? t = some op)
    (rest : List Token) :
    (Expr.readOperand (t :: rest)).phrase = .unary op (Expr.readOperand rest).phrase := by
  unfold Expr.readOperand
  simp only [h]
  rw [Expr.readOperand.eq_def]

theorem Expr.phrase_readOperand_paren (rest : List Token) :
    (Expr.readOperand (.mark .lparen :: rest)).phrase =
      .paren (Expr.readAt 0 rest).phrase (.ofTokens (Expr.readAt 0 rest).rest) := by
  rw [Expr.readOperand]
  rfl

theorem Arguments.phrase_read_more {tokens rest : List Token}
    (h : (Expr.readAt 0 tokens).rest = .mark .comma :: rest) :
    (Arguments.read tokens).phrase =
      .more (Expr.readAt 0 tokens).phrase (Arguments.read rest).phrase :=
  congrArg Prod.fst (Arguments.parse_more (Prod.ext rfl h))

theorem Arguments.phrase_read_last {tokens : List Token}
    (h : (Expr.readAt 0 tokens).rest.head? ≠ some (.mark .comma)) :
    (Arguments.read tokens).phrase =
      .last (Expr.readAt 0 tokens).phrase (.ofTokens (Expr.readAt 0 tokens).rest) := by
  rw [Arguments.read]
  split
  · next hrest =>
    rw [hrest] at h
    exact absurd rfl h
  · rfl

namespace Unbounded

open Machine

/-! ### One action after the other -/

theorem bind_eq {x' : Unbounded ε α} {f' : α → Unbounded ε β} {x : EStateM ε Machine α}
    {f : α → EStateM ε Machine β} (hx : x' m = ofEnding x m)
    (hf : ∀ a m₁, x m = .ok a m₁ → f' a m₁ = ofEnding (f a) m₁) :
    (x' >>= f') m = ofEnding (x >>= f) m := by
  have hbind : (x' >>= f') m = (x' m).bind fun (r, m) =>
      match r with
      | .ok a => f' a m
      | .error e => some (.error e, m) := by
    change (x' m >>= fun p => _) = _
    cases x' m with
    | none => rfl
    | some p => rcases p with ⟨_ | _, m₁⟩ <;> rfl
  rw [hbind, hx, ofEnding, ofEnding, bind_apply]
  cases hend : x m with
  | ok a m₁ => exact hf a m₁ hend
  | error e m₁ => rfl

theorem get_bind_eq (f' : Machine → Unbounded ε α) : (get >>= f') m = f' m m := rfl

/-! ### Operators -/

/-- An expression whose left operand fails fails in the same way. -/
theorem evalWith_readOperators_error {body : Name → Eval Value} {left : Expr} {c : Cause}
    (h : evalWith body left m = .error c m₁) (level : Nat) (tokens : List Token) :
    evalWith body (Expr.readOperators level left tokens).phrase m = .error c m₁ := by
  cases tokens with
  | nil =>
    rw [Expr.readOperators]
    exact h
  | cons t rest =>
    rw [Expr.readOperators]
    cases BinaryOp.ofToken? t with
    | none => exact h
    | some op =>
      by_cases hlevel : level ≤ op.level
      · have hbinary : evalWith body
            (.binary op left (Expr.readAt (op.level + 1) rest).phrase) m = .error c m₁ := by
          rw [evalWith, bind_apply, h]
        have hwhole := evalWith_readOperators_error hbinary level
          (Expr.readAt (op.level + 1) rest).rest
        simp only [if_pos hlevel]
        exact hwhole
      · simp only [if_neg hlevel]
        exact h
termination_by tokens.length
decreasing_by exact Nat.lt_succ_of_le (Expr.readAt (op.level + 1) rest).rest_le

/-! ### Evaluation -/

/-- Taking a token leaves fewer of them. -/
theorem rest_past_lt {t : Token} (ht : m.program.peek? = some t) :
    m.past.program.rest.length < m.program.rest.length := by
  rw [Program.peek?_eq_head?] at ht
  obtain ⟨ts, hrest⟩ := List.head?_eq_some_iff.mp ht
  rw [rest_past hrest, hrest]
  exact Nat.lt_succ_self _

/-- Where an action fails, what comes after it does not matter. -/
theorem bind_error_eq {x' : Unbounded ε α} {f' : α → Unbounded ε β} {x : EStateM ε Machine α}
    {y : EStateM ε Machine β} {e : ε} (hx : x' m = ofEnding x m) (hfail : x m = .error e m₁)
    (hy : y m₂ = .error e m₁) : (x' >>= f') m = ofEnding y m₂ := by
  change (x' m >>= fun p => _) = _
  rw [hx, ofEnding, ofEnding, hfail, hy]
  rfl

/-- Behind an action that has succeeded. -/
theorem bind_ok_eq {x' : Unbounded ε α} {f' : α → Unbounded ε β} {x : EStateM ε Machine α} {a : α}
    (hx : x' m = ofEnding x m) (hend : x m = .ok a m₁) : (x' >>= f') m = f' a m₁ := by
  change (x' m >>= fun p => _) = _
  rw [hx, ofEnding, hend]
  rfl

theorem lift_bind_ok {x : EStateM ε Machine α} {f' : α → Unbounded ε β} {a : α}
    (hend : x m = .ok a m₁) : ((liftM x : Unbounded ε α) >>= f') m = f' a m₁ :=
  bind_ok_eq (show (liftM x : Unbounded ε α) m = ofEnding x m from rfl) hend

theorem lift_bind_error {x : EStateM ε Machine α} {f' : α → Unbounded ε β}
    {y : EStateM ε Machine β} {e : ε} (hfail : x m = .error e m₁) (hy : y m₂ = .error e m₁) :
    ((liftM x : Unbounded ε α) >>= f') m = ofEnding y m₂ :=
  bind_error_eq (show (liftM x : Unbounded ε α) m = ofEnding x m from rfl) hfail hy

/-- Behind a token. -/
theorem skip_bind_eq (f' : Unit → Unbounded Cause β) :
    ((liftM (skip 1) : Unbounded Cause Unit) >>= f') m = f' () m.past := rfl

/-- A check leaves the machine as it is. -/
theorem eq_of_checkFits {name : Name} {v : Value} (h : checkFits name v m = .ok () m₁) :
    m = m₁ := by
  rw [checkFits] at h
  split at h
  · cases h
    rfl
  · cases h

/-- How a function returns depends only on the end of what it did. -/
theorem inFunction_congr {x y : Eval α} (h : x m = y m₁) : inFunction x m = inFunction y m₁ := by
  rw [inFunction, inFunction, h]

/-- A function returns as soon as its expression has ended. -/
theorem evalBody_apply (x : Eval Value) (name : Name) (m : Machine) :
    evalBody x name m =
      match x m with
      | .ok v m => leave name (.ok v) m
      | .error c m => leave name (.error c) m := by
  rw [evalBody]
  cases hend : x m with
  | ok v m₁ => exact inFunction_congr (by rw [bind_apply, hend]; rfl)
  | error c m₁ => exact inFunction_congr (by rw [bind_apply, hend]; rfl)

/-- An operator in front of an operand is applied behind it. -/
theorem unary_eq {body : Name → Eval Value} {t : Token} {op : UnaryOp}
    (hop : UnaryOp.ofToken? t = some op)
    (hoperand : Task.run .operand m.past =
      ofEnding (evalWith body (Expr.readOperand m.past.program.rest).phrase) m.past) :
    (do
      let v ← Task.run .operand
      Machine.ofExcept (op.apply v) : Unbounded Cause Value) m.past =
      ofEnding (evalWith body (Expr.readOperand (t :: m.past.program.rest)).phrase) m := by
  rw [Expr.phrase_readOperand_unary hop]
  change _ = ofEnding (evalWith _ _ >>= fun v => Machine.ofExcept (op.apply v)) m.past
  exact bind_eq hoperand fun v m₁ _ => rfl

/-- An expression in parentheses is evaluated, and then its closing parenthesis is taken. -/
theorem paren_eq {d : Nat} (hpast : m.past.Placed F d)
    (hvalue : Task.run (.value 0) m.past =
      ofEnding (evalWith (bodyAt d) (Expr.readAt 0 m.past.program.rest).phrase) m.past) :
    (do
      let v ← Task.run (.value 0)
      takeClosing (.ofTokens (← get).program.rest)
      return v : Unbounded Cause Value) m.past =
      ofEnding (evalWith (bodyAt d)
        (Expr.readOperand (.mark .lparen :: m.past.program.rest)).phrase) m := by
  rw [Expr.phrase_readOperand_paren]
  change _ = ofEnding (evalWith _ _ >>= _) m.past
  refine bind_eq hvalue fun v m₁ hend => ?_
  rw [get_bind_eq, ← (hpast.value hend).2.1]
  exact bind_eq rfl fun _ _ _ => rfl

/-- A line is used up when no tokens are left. -/
theorem atEnd_eq (p : Program) : p.atEnd = p.rest.isEmpty := by
  rw [Program.atEnd, Program.rest, Bool.eq_iff_iff]
  simp

mutual

theorem value_eq {d : Nat} {m : Machine} (hm : m.Placed F d) (level : Nat) :
    Task.run (.value level) m =
      ofEnding (evalWith (bodyAt d) (Expr.readAt level m.program.rest).phrase) m := by
  have hoperand := operand_eq hm
  rw [Task.run, Expr.readAt]
  dsimp only
  cases hend : evalWith (bodyAt d) (Expr.readOperand m.program.rest).phrase m with
  | error c m₁ => exact bind_error_eq hoperand hend (evalWith_readOperators_error hend level _)
  | ok v m₁ =>
    obtain ⟨hm₁, hrest, hlt⟩ := hm.operand hend
    have hoperators := operators_eq hm₁ level hend
    rw [bind_ok_eq hoperand hend, hoperators, hrest]
termination_by (d, m.program.rest.length, 2)

theorem operators_eq {d : Nat} {m m₁ : Machine} (hm₁ : m₁.Placed F d) (level : Nat) {left : Expr}
    {v : Value} (hleft : evalWith (bodyAt d) left m = .ok v m₁) :
    Task.run (.operators level v) m₁ =
      ofEnding (evalWith (bodyAt d) (Expr.readOperators level left m₁.program.rest).phrase) m := by
  have hstop : (pure v : Unbounded Cause Value) m₁ = ofEnding (evalWith (bodyAt d) left) m := by
    rw [ofEnding, hleft]
    rfl
  rw [Task.run, get_bind_eq, Program.peek?_eq_head?]
  cases hrest : m₁.program.rest with
  | nil =>
    rw [Expr.readOperators]
    exact hstop
  | cons t rest =>
    rw [Expr.readOperators, List.head?_cons, Option.bind_some]
    cases hop : BinaryOp.ofToken? t with
    | none => exact hstop
    | some op =>
      dsimp only
      by_cases hlevel : level ≤ op.level
      · rw [if_pos hlevel]
        simp only [if_pos hlevel]
        obtain ⟨hpast, hpastrest, hlt⟩ := hm₁.past hrest
        have hright := value_eq hpast (op.level + 1)
        rw [skip_bind_eq, ← hpastrest]
        cases hend : evalWith (bodyAt d) (Expr.readAt (op.level + 1) m₁.past.program.rest).phrase
            m₁.past with
        | error c m₂ =>
          refine bind_error_eq hright hend (evalWith_readOperators_error ?_ level _)
          rw [evalWith, bind_apply, hleft]
          change (evalWith _ _ >>= _) m₁.past = _
          rw [bind_apply, hend]
        | ok w m₂ =>
          obtain ⟨hm₂, hrest₂, hlt₂⟩ := hpast.value hend
          have hbinary : evalWith (bodyAt d)
              (.binary op left (Expr.readAt (op.level + 1) m₁.past.program.rest).phrase) m =
                Machine.ofExcept (op.apply v w) m₂ := by
            rw [evalWith, bind_apply, hleft]
            change (evalWith _ _ >>= _) m₁.past = _
            rw [bind_apply, hend]
          rw [bind_ok_eq hright hend]
          cases happly : op.apply v w with
          | error c =>
            rw [happly] at hbinary
            refine lift_bind_error rfl (evalWith_readOperators_error hbinary level _)
          | ok x =>
            rw [happly] at hbinary
            have hoperators := operators_eq hm₂ level hbinary
            rw [lift_bind_ok (show Machine.ofExcept (.ok x) m₂ = .ok x m₂ from rfl), hoperators,
              hrest₂]
      · rw [if_neg hlevel]
        simp only [if_neg hlevel]
        exact hstop
termination_by (d, m₁.program.rest.length, 1)

theorem operand_eq {d : Nat} {m : Machine} (hm : m.Placed F d) :
    Task.run .operand m =
      ofEnding (evalWith (bodyAt d) (Expr.readOperand m.program.rest).phrase) m := by
  rw [Task.run, get_bind_eq, Program.peek?_eq_head?]
  cases hrest : m.program.rest with
  | nil =>
    rw [Expr.readOperand]
    rfl
  | cons t rest =>
    obtain ⟨hpast, rfl, hlt⟩ := hm.past hrest
    rw [List.head?_cons]
    dsimp only
    rw [skip_bind_eq]
    cases hop : UnaryOp.ofToken? t with
    | some op => exact unary_eq hop (operand_eq hpast)
    | none =>
      match t, hop with
      | .number x, _ =>
        rw [Expr.readOperand]
        rfl
      | .string s, _ =>
        rw [Expr.readOperand]
        rfl
      | .symbol name, _ => exact symbol_eq hpast name
      | .keyword _, hop | .remark _, hop | .data _, hop =>
        unfold Expr.readOperand
        rw [hop]
        rfl
      | .mark k, hop =>
        cases k with
        | lparen => exact paren_eq hpast (value_eq hpast 0)
        | plus => cases hop
        | minus => cases hop
        | _ =>
          unfold Expr.readOperand
          rw [hop]
          rfl
termination_by (d, m.program.rest.length, 0)

theorem symbol_eq {d : Nat} {m : Machine} (hpast : m.past.Placed F d) (name : Name) :
    (do
      if (← get).program.peek? = some (.mark .lparen) then
        skip 1
        Task.run (.call name)
      else return (← get).lookup name : Unbounded Cause Value) m.past =
      ofEnding (evalWith (bodyAt d)
        (Expr.readOperand (.symbol name :: m.past.program.rest)).phrase) m := by
  rw [get_bind_eq, Program.peek?_eq_head?]
  by_cases hparen : m.past.program.rest.head? = some (.mark .lparen)
  · obtain ⟨rest, hrest⟩ := List.head?_eq_some_iff.mp hparen
    rw [if_pos hparen, skip_bind_eq, hrest]
    obtain ⟨hpast₂, hrest₂, hlt⟩ := hpast.past hrest
    have hread : (Expr.readOperand (.symbol name :: .mark .lparen :: rest)).phrase =
        .call name (Arguments.read rest).phrase := by
      rw [Expr.readOperand]
      rfl
    have hcall := call_eq hpast₂ name
    rw [hrest₂] at hcall
    rw [hcall, hread]
  · have hread : (Expr.readOperand (.symbol name :: m.past.program.rest)).phrase = .scalar name :=
      congrArg Prod.fst (Expr.parseOperand_symbol name hparen)
    rw [if_neg hparen, hread]
    rfl
termination_by (d, m.past.program.rest.length, 5)

theorem call_eq {d : Nat} {m : Machine} (hm : m.past.past.Placed F d) (name : Name) :
    Task.run (.call name) m.past.past =
      ofEnding (evalWith (bodyAt d)
        (.call name (Arguments.read m.past.past.program.rest).phrase)) m := by
  rw [Task.run, evalWith]
  change _ = ofEnding (match Builtin.find? name with | some b => _ | none => _) m.past.past
  cases Builtin.find? name with
  | some b => exact bind_eq (arguments_eq hm) fun vs m₁ _ => rfl
  | none =>
    dsimp only
    rw [get_bind_eq]
    change _ = ofEnding (match m.past.past.functions[name]? with | some f => _ | none => _) _
    cases hf : m.past.past.functions[name]? with
    | none =>
      exact bind_eq (arguments_eq hm) fun vs m₁ _ => bind_eq rfl fun index m₂ _ =>
        bind_eq rfl fun g m₃ _ => rfl
    | some f =>
      refine bind_eq (bindings_eq hm f.firstParam f.otherParams ∅) fun params m₁ hparams => ?_
      refine bind_eq rfl fun _ m₂ hcall => ?_
      have hwidth := Arguments.width_read_le m.past.past.program.rest
      obtain ⟨hm₁, -⟩ := hm.walks (Walks.bound (returns_bodyAt d) _ _ _ _) hwidth hparams
      rw [hm.fit.functions] at hf
      cases d with
      | zero =>
        rw [pushFunction_overflow hm₁.fit.callsLeft] at hcall
        cases hcall
      | succ d =>
        -- inside the function one call less may nest
        obtain ⟨tokens, htokens, hindex⟩ := hm₁.fit.bodies name f hf
        rw [pushFunction_inside hm₁.fit.callsLeft params htokens hindex] at hcall
        cases hcall
        exact body_eq (hm₁.inside htokens hindex params) name
termination_by (d, m.past.past.program.rest.length, 4)

theorem arguments_eq {d : Nat} {m : Machine} (hm : m.Placed F d) :
    Task.run .arguments m =
      ofEnding (evalArguments (bodyAt d) (Arguments.read m.program.rest).phrase) m := by
  have hvalue := value_eq hm 0
  rw [Task.run]
  by_cases hcomma : (Expr.readAt 0 m.program.rest).rest.head? = some (.mark .comma)
  · obtain ⟨rest, hrest⟩ := List.head?_eq_some_iff.mp hcomma
    rw [Arguments.phrase_read_more hrest, evalArguments]
    refine bind_eq hvalue fun v m₁ hend => ?_
    obtain ⟨hm₁, hrest₁, hlt₁⟩ := hm.value hend
    rw [hrest] at hrest₁
    rw [get_bind_eq, Program.peek?_eq_head?, hrest₁, if_pos List.head?_cons]
    obtain ⟨hpast, hpastrest, hlt⟩ := hm₁.past hrest₁
    have hothers := arguments_eq hpast
    rw [hpastrest] at hothers
    refine bind_eq rfl fun _ m₂ hskip => ?_
    cases hskip
    exact bind_eq hothers fun vs m₃ _ => rfl
  · rw [Arguments.phrase_read_last hcomma, evalArguments]
    refine bind_eq hvalue fun v m₁ hend => ?_
    obtain ⟨-, hrest₁, -⟩ := hm.value hend
    rw [get_bind_eq, Program.peek?_eq_head?, hrest₁, if_neg hcomma, get_bind_eq, hrest₁]
    exact bind_eq rfl fun _ m₂ _ => rfl
termination_by (d, m.program.rest.length, 3)

theorem bindings_eq {d : Nat} {m : Machine} (hm : m.Placed F d) (p : Name) (ps : List Name)
    (bound : Bindings) :
    Task.run (.bindings p ps bound) m =
      ofEnding (bindArguments (bodyAt d) p ps (Arguments.read m.program.rest).phrase bound) m := by
  have hvalue := value_eq hm 0
  rw [Task.run]
  by_cases hcomma : (Expr.readAt 0 m.program.rest).rest.head? = some (.mark .comma)
  · obtain ⟨rest, hrest⟩ := List.head?_eq_some_iff.mp hcomma
    rw [Arguments.phrase_read_more hrest, bindArguments]
    refine bind_eq hvalue fun v m₁ hend => ?_
    obtain ⟨hm₁, hrest₁, hlt₁⟩ := hm.value hend
    rw [hrest] at hrest₁
    refine bind_eq rfl fun _ m₂ hcheck => ?_
    obtain rfl := eq_of_checkFits hcheck
    rw [get_bind_eq]
    cases ps with
    | nil =>
      dsimp only
      rw [Program.peek?_eq_head?, hrest₁, if_pos List.head?_cons]
      rfl
    | cons q qs =>
      dsimp only
      rw [Program.peek?_eq_head?, hrest₁, if_pos List.head?_cons]
      obtain ⟨hpast, hpastrest, hlt⟩ := hm₁.past hrest₁
      have hothers := bindings_eq hpast q qs (bound.insert p v)
      rw [hpastrest] at hothers
      refine bind_eq rfl fun _ m₃ hskip => ?_
      cases hskip
      exact hothers
  · rw [Arguments.phrase_read_last hcomma, bindArguments]
    refine bind_eq hvalue fun v m₁ hend => ?_
    obtain ⟨-, hrest₁, -⟩ := hm.value hend
    refine bind_eq rfl fun _ m₂ hcheck => ?_
    obtain rfl := eq_of_checkFits hcheck
    rw [get_bind_eq]
    cases ps with
    | nil =>
      dsimp only
      rw [Program.peek?_eq_head?, hrest₁, if_neg hcomma]
      exact bind_eq rfl fun _ m₃ _ => rfl
    | cons q qs =>
      dsimp only
      rw [Program.peek?_eq_head?, hrest₁, if_neg hcomma, atEnd_eq, hrest₁]
      cases hrest : (Expr.readAt 0 m.program.rest).rest with
      | nil => rfl
      | cons t ts =>
        have hclose : Closing.ofTokens (t :: ts) ≠ .ended := by
          unfold Closing.ofTokens
          split <;> simp_all
        cases hclosing : Closing.ofTokens (t :: ts) with
        | ended => exact absurd hclosing hclose
        | closed => rfl
        | blocked => rfl
termination_by (d, m.program.rest.length, 3)

theorem body_eq {d : Nat} {m : Machine} (hm : m.Placed F d) (name : Name) :
    Task.run (.body name) m = ofEnding (bodyAt (d + 1) name) m := by
  have hvalue := value_eq hm 0
  rw [Task.run]
  change (Task.run (.value 0) m >>= fun p => ofEnding (leave name p.1) p.2) = _
  rw [hvalue, bodyAt, ofEnding, ofEnding, evalBody_apply, get_bind_apply, Expr.read]
  cases evalWith (bodyAt d) (Expr.readAt 0 m.program.rest).phrase m with
  | ok v m₁ => rfl
  | error c m₁ => rfl
termination_by (d, m.program.rest.length, 5)

end

end Unbounded

end LineBasic
