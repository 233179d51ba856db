import LineBasic.Proofs.Expr.Meaning
import LineBasic.Proofs.Machine.Call

/-!
# Evaluation on a machine refines the meaning of trees

Evaluating the tokens of a tree on a machine gives exactly the value, or the first error, that the
tree has by itself. On success the machine is as before, with the location behind the tokens.

The evaluator moves to another line in the middle of an expression when a function is called, and
comes back. So the induction is on the number of calls that may still nest, and inside it on the
tree; what is carried along is that the current tokens are those of the current line, to which a
call returns.

## Main definitions

* `Machine.moved` — a machine further right on its line
* `Machine.Defines` — the functions of a machine stand for trees
* `Machine.Prepared` — a machine on which trees can be evaluated
* `Agrees` — an evaluation does what a meaning says
* `Tree.AgreesAt` — the tokens of a tree are evaluated to its value

## Main results

* `Tree.agreesAt` — every tree is evaluated to its value, if calls agree with their meaning
* `callsAgree` — a call does what the meaning of the called function says
* `Tree.expression_eq_value` — evaluation refines the meaning of trees
-/

namespace LineBasic

open Machine

namespace Machine

/-- A machine whose location is `n` tokens further right. -/
def moved (m : Machine) (n : Nat) : Machine :=
  { m with program := m.program.skip n }

@[simp] theorem moved_moved (m : Machine) (a b : Nat) : (m.moved a).moved b = m.moved (a + b) := by
  simp [moved, Program.skip, Nat.add_assoc]

/-- The tokens at a location are a tree, and the statement ends after them. -/
def HoldsBody (p : Program) (body : Tree) (loc : Location) : Prop :=
  ∃ tokens tail, p.tokensOf? loc.line = some tokens ∧
    tokens.drop loc.index = body.tokens ++ tail ∧ ∀ t ∈ tail.head?, t.endsStatement

/-- The functions of a machine are those of `defs`: none of them has the name of a built-in one, the
machine knows its parameters and where its body is, and the body calls such functions only. -/
def Defines (m : Machine) (defs : Definitions) : Prop :=
  ∀ name d, defs name = some d →
    Builtin.find? name = none ∧ d.body.wellCalled defs ∧
      ∃ f, m.functions[name]? = some f ∧ f.params = d.params ∧ HoldsBody m.program d.body f.body

/-- A machine on which `n` tokens of a tree can be evaluated: they are on its line, its tokens are
those of the line, and `calls` calls may nest. -/
structure Prepared (m : Machine) (defs : Definitions) (calls n : Nat) : Prop where
  current : m.program.Synced
  room : m.program.location.index + n ≤ m.program.current.length
  defines : m.Defines defs
  callsLeft : m.callsLeft = calls

namespace Prepared

variable {m : Machine} {defs : Definitions} {calls a b : Nat}

theorem moved (h : m.Prepared defs calls (a + b)) : (m.moved a).Prepared defs calls b where
  current := h.current
  room := by
    have := h.room
    simp only [Machine.moved, Program.skip]
    omega
  defines := h.defines
  callsLeft := h.callsLeft

theorem left (h : m.Prepared defs calls (a + b)) : m.Prepared defs calls a where
  current := h.current
  room := by
    have := h.room
    omega
  defines := h.defines
  callsLeft := h.callsLeft

end Prepared

end Machine

/-! ### Agreement of an evaluation with a meaning -/

/-- Evaluating `x` on `m` does what `r` says: it gives a value related to the one of `r` and moves
`n` tokens on, or it fails with the error of `r`. -/
def Agrees {α β : Type} (R : α → β → Prop) (x : Eval α) (m : Machine) (n : Nat) :
    Except Cause β → Prop
  | .ok b => ∃ a, x m = .ok a (m.moved n) ∧ R a b
  | .error e => ∃ m', x m = .error e m'

namespace Agrees

variable {α β γ δ : Type} {R : α → β → Prop} {S : γ → δ → Prop} {m : Machine}

theorem bind {x : Eval α} {f : α → Eval γ} {n k : Nat} {r : Except Cause β}
    {g : β → Except Cause δ} (hx : Agrees R x m n r)
    (hf : ∀ a b, R a b → Agrees S (f a) (m.moved n) k (g b)) :
    Agrees S (x >>= f) m (n + k) (r >>= g) := by
  cases r with
  | error e =>
    obtain ⟨m', hx⟩ := hx
    exact ⟨m', by rw [bind_apply, hx]⟩
  | ok b =>
    obtain ⟨a, hx, hab⟩ := hx
    have hbind : (x >>= f) m = f a (m.moved n) := by rw [bind_apply, hx]
    have hfa := hf a b hab
    change Agrees S (x >>= f) m (n + k) (g b)
    cases hg : g b with
    | error e =>
      rw [hg] at hfa
      obtain ⟨m', hfa⟩ := hfa
      exact ⟨m', hbind.trans hfa⟩
    | ok c =>
      rw [hg] at hfa
      obtain ⟨c', hfa, hc⟩ := hfa
      exact ⟨c', hbind.trans (by rw [hfa, moved_moved]), hc⟩

/-- Moving on is no part of a meaning. -/
theorem skip_bind {f : Unit → Eval γ} {n k : Nat} {r : Except Cause δ}
    (hf : Agrees S (f ()) (m.moved n) k r) : Agrees S (skip n >>= f) m (n + k) r :=
  bind (R := fun _ _ => True) (r := .ok ()) (g := fun _ => r) ⟨(), rfl, trivial⟩
    fun _ _ _ => hf

theorem ofExcept (r : Except Cause α) : Agrees Eq (Machine.ofExcept r) m 0 r := by
  cases r with
  | error e => exact ⟨m, rfl⟩
  | ok a => exact ⟨a, rfl, rfl⟩

/-- Checking a value before it is used. -/
theorem checkFits_bind {name : Name} {v : Value} {f : Unit → Eval γ} {k : Nat}
    {g : Value → Except Cause δ} (hf : Agrees S (f ()) m k (g v)) :
    Agrees S (checkFits name v >>= f) m k (v.checkedFor name >>= g) := by
  rw [← Nat.zero_add k]
  refine bind (R := fun _ w => w = v) (n := 0) ?_ fun _ w hw => ?_
  · rw [checkFits, Value.checkedFor]
    cases v.fits name with
    | false => exact ⟨m, rfl⟩
    | true => exact ⟨(), rfl, rfl⟩
  · rw [hw]
    exact hf

/-- A closing parenthesis adds nothing to the value in front of it. -/
theorem paren {x : Eval α} {n : Nat} {r : Except Cause β} (hx : Agrees R x m n r) :
    Agrees R (do let a ← x; takeClosing .closed; pure a) m (n + 1) r := by
  have hbind : (r >>= fun b => Except.ok b) = r := by cases r <;> rfl
  rw [← hbind]
  exact bind hx fun a b hab => ⟨a, rfl, hab⟩

/-- Looking at the machine leaves it as it is. -/
theorem get_bind {x : Machine → Eval γ} {k : Nat} {r : Except Cause δ}
    (hx : Agrees S (x m) m k r) : Agrees S (get >>= x) m k r := by
  cases r with
  | error e => exact hx
  | ok b => exact hx

end Agrees

/-! ### Calls -/

/-- Binding one more parameter overrides one more name. -/
theorem Environment.with_override (env : Environment) (bound : Bindings) (p : Name) (v : Value) :
    Environment.with (fun name => bound[name]?.getD (env name)) p v =
      fun name => (bound.insert p v)[name]?.getD (env name) := by
  funext name
  rw [Environment.with, Std.ExtTreeMap.getElem?_insert]
  by_cases h : name = p
  · simp [h]
  · simp [h, Ne.symm h]

namespace Machine

/-- The body sees the parameters before all that the caller sees. -/
theorem inside_lookup (m : Machine) (params : Bindings) (body : Location) (tokens : List Token) :
    (m.inside params body tokens).lookup = fun name => params[name]?.getD (m.lookup name) := by
  funext name
  simp only [lookup, inside, Program.param?, List.findSome?_cons, Frame.params]
  cases params[name]? <;> rfl

/-- Inside a function one call less may nest, and the tokens are those of the body's line. -/
theorem Prepared.inside {m : Machine} {defs : Definitions} {calls n : Nat}
    (h : m.Prepared defs (calls + 1) n) (params : Bindings) {body : Location}
    {tokens : List Token} {k : Nat} (htokens : m.program.tokensOf? body.line = some tokens)
    (hroom : body.index + k ≤ tokens.length) :
    (m.inside params body tokens).Prepared defs calls k where
  current := htokens
  room := hroom
  defines := h.defines
  callsLeft := callsLeft_inside h.callsLeft params body tokens

/-- A function whose body fails fails in the same way. -/
theorem evalBody_error {x : Eval Value} {m m' : Machine} {e : Cause} (name : Name)
    (hx : x m = .error e m') : ∃ m'', evalBody x name m = .error e m'' := by
  simp only [evalBody, inFunction, bind_apply, hx]
  split
  · exact ⟨_, rfl⟩
  · exact ⟨_, rfl⟩

/-- A function whose body has a value checks it and returns to where it was called. -/
theorem evalBody_inside {x : Eval Value} {m : Machine} {defs : Definitions} {calls : Nat}
    {params : Bindings} {body : Location} {tokens : List Token} {n : Nat} {v : Value} (name : Name)
    (h : m.Prepared defs calls 0)
    (hx : x (m.inside params body tokens) = .ok v ((m.inside params body tokens).moved n))
    (hend : ∀ t ∈ (tokens.drop (body.index + n)).head?, t.endsStatement) :
    evalBody x name (m.inside params body tokens) =
      if v.fits name then .ok v m else .error .typeMismatch m := by
  have hstatement : ((m.inside params body tokens).moved n).program.atStatementEnd = true := by
    have hpeek : ((m.inside params body tokens).moved n).program.peek? =
        (tokens.drop (body.index + n)).head? := by
      rw [List.head?_drop]
      rfl
    rw [Program.atStatementEnd, hpeek]
    cases htail : (tokens.drop (body.index + n)).head? with
    | none => rfl
    | some t => exact hend t htail
  have hpop : onProgram Program.popFunction ((m.inside params body tokens).moved n) = .ok () m :=
    popFunction_inside h.current h.room rfl
  simp only [evalBody, inFunction, bind_apply, hx, get_apply, hstatement, checkFits]
  cases v.fits name with
  | true =>
    simp only [Bool.not_true, Bool.false_eq_true, if_false, if_true, bind_apply, pure_apply, hpop]
  | false =>
    simp only [Bool.not_true, Bool.false_eq_true, if_false, bind_apply, throw_apply, hpop]

end Machine

/-- A call does what the meaning of the called function says, once its arguments are bound. -/
def CallsAgree (defs : Definitions) (calls : Nat) : Prop :=
  ∀ {m : Machine} {name : Name} {d : Definition} {body : Location} (params : Bindings),
    m.Prepared defs calls 0 → defs name = some d → HoldsBody m.program d.body body →
    Agrees Eq (do onProgram (Program.pushFunction params body); bodyAt calls name) m 0
      (match calls with
        | 0 => .error .stackOverflow
        | calls + 1 => do
          let v ← d.body.value defs calls fun name => params[name]?.getD (m.lookup name)
          v.checkedFor name)

/-! ### Trees -/

section Trees

variable {defs : Definitions} {calls : Nat}

/-- The tokens of a tree at a level are evaluated to its value. -/
def Tree.AgreesAt (defs : Definitions) (calls level : Nat) (t : Tree) : Prop :=
  ∀ ⦃m : Machine⦄, m.Prepared defs calls (t.tokensAt level).length →
    Agrees Eq (evalWith (bodyAt calls) (t.exprAt level)) m (t.tokensAt level).length
      (t.value defs calls m.lookup)

namespace Tree.AgreesAt

variable {e left right : Tree} {level : Nat}

theorem unary (op : UnaryOp) (he : e.AgreesAt defs calls 6) :
    (Tree.unary op e).AgreesAt defs calls level := by
  intro m hm
  rw [Tree.tokensAt, List.length_cons, Nat.add_comm] at hm ⊢
  rw [Tree.value, Tree.exprAt, evalWith]
  refine Agrees.skip_bind (Agrees.bind (k := 0) (he hm.moved) ?_)
  rintro v _ rfl
  exact Agrees.ofExcept (op.apply v)

/-- Two operands without parentheses around them. -/
theorem bare {op : BinaryOp} (hl : left.AgreesAt defs calls op.rank)
    (hr : right.AgreesAt defs calls (op.rank + 1)) {m : Machine}
    (hm : m.Prepared defs calls
      ((left.tokensAt op.rank).length + (1 + (right.tokensAt (op.rank + 1)).length))) :
    Agrees Eq (evalWith (bodyAt calls)
        (.binary op (left.exprAt op.rank) (right.exprAt (op.rank + 1)))) m
      ((left.tokensAt op.rank).length + (1 + (right.tokensAt (op.rank + 1)).length))
      ((Tree.binary op left right).value defs calls m.lookup) := by
  rw [Tree.value, evalWith]
  refine Agrees.bind (hl hm.left) ?_
  rintro v _ rfl
  refine Agrees.skip_bind (Agrees.bind (k := 0) (hr hm.moved.moved) ?_)
  rintro w _ rfl
  exact Agrees.ofExcept (op.apply v w)

/-- With or without parentheses, the operands are evaluated in the same way. -/
theorem binary {op : BinaryOp} (hl : left.AgreesAt defs calls op.rank)
    (hr : right.AgreesAt defs calls (op.rank + 1)) :
    (Tree.binary op left right).AgreesAt defs calls level := by
  intro m hm
  have hlength : (left.tokensAt op.rank ++ op.token :: right.tokensAt (op.rank + 1)).length =
      (left.tokensAt op.rank).length + (1 + (right.tokensAt (op.rank + 1)).length) := by
    simp [Nat.add_comm]
  by_cases hlevel : level ≤ op.rank
  · simp only [Tree.tokensAt, Tree.exprAt, if_pos hlevel, hlength] at hm ⊢
    exact hl.bare hr hm
  · have hwidth : ((Tree.binary op left right).tokensAt level).length =
        1 + ((left.tokensAt op.rank).length +
          (1 + (right.tokensAt (op.rank + 1)).length) + 1) := by
      simp only [Tree.tokensAt, if_neg hlevel, parenthesized, List.length_cons,
        List.length_append, List.length_nil]
      omega
    rw [hwidth] at hm ⊢
    simp only [Tree.exprAt, if_neg hlevel, evalWith]
    exact Agrees.skip_bind (Agrees.paren (hl.bare hr hm.moved.left))

end Tree.AgreesAt

mutual

/-- The tokens of a tree are evaluated to its value, if calls agree with their meaning. -/
theorem Tree.agreesAt (hcalls : CallsAgree defs calls) (t : Tree) (level : Nat)
    (ht : t.wellCalled defs) : t.AgreesAt defs calls level := by
  match t with
  | .number x =>
    intro m _
    rw [Tree.value]
    exact ⟨_, rfl, rfl⟩
  | .string s =>
    intro m _
    rw [Tree.value]
    exact ⟨_, rfl, rfl⟩
  | .scalar name =>
    intro m _
    rw [Tree.value]
    exact ⟨_, rfl, rfl⟩
  | .unary op e =>
    rw [Tree.wellCalled] at ht
    exact .unary op (e.agreesAt hcalls 6 ht)
  | .binary op left right =>
    rw [Tree.wellCalled, Bool.and_eq_true] at ht
    exact .binary (left.agreesAt hcalls _ ht.1) (right.agreesAt hcalls _ ht.2)
  | .call name args =>
    intro m hm
    rw [Tree.wellCalled, Bool.and_eq_true, Option.any_eq_true] at ht
    obtain ⟨⟨d, hd, hcount⟩, hargs⟩ := ht
    have hcount : args.count = d.params.length := (by simpa using hcount : d.params.length = _).symm
    obtain ⟨hbuiltin, -, f, hf, hparams, hbody⟩ := hm.defines name d hd
    rw [Tree.tokensAt, List.length_cons, List.length_cons, Nat.add_assoc, Nat.add_comm] at hm ⊢
    rw [Tree.value, Tree.exprAt, evalWith]
    refine Agrees.skip_bind ?_
    simp only [hbuiltin, hd, ← hparams, Function.params]
    refine Agrees.get_bind ?_
    -- the name and its parenthesis were passed, so the functions are those of `m` still
    have hmoved : (m.moved 2).functions[name]? = some f := hf
    simp only [hmoved]
    rw [← Nat.add_zero args.tokens.length]
    refine Agrees.bind (args.bindArguments_agrees hcalls hargs ?_ hm.moved ?_) ?_
    · rw [hcount, ← hparams, Function.params, List.length_cons]
    · funext name
      rw [Std.ExtTreeMap.getElem?_empty]
      rfl
    · rintro params _ rfl
      exact hcalls params hm.moved.moved hd hbody

/-- The tokens of arguments are bound as their meaning says; what is bound so far overrides what the
caller sees. -/
theorem Trees.bindArguments_agrees (hcalls : CallsAgree defs calls) (ts : Trees) {m : Machine}
    {p : Name} {ps : List Name} {bound : Bindings} {inner : Environment}
    (ht : ts.wellCalled defs) (hcount : ts.count = ps.length + 1)
    (hm : m.Prepared defs calls ts.tokens.length)
    (hinner : inner = fun name => bound[name]?.getD (m.lookup name)) :
    Agrees (fun b env => env = fun name => b[name]?.getD (m.lookup name))
      (bindArguments (bodyAt calls) p ps ts.exprs bound) m ts.tokens.length
      (ts.bind defs calls m.lookup (p :: ps) inner) := by
  match ts with
  | .last e =>
    rw [Trees.wellCalled] at ht
    rw [Trees.tokens, List.length_append, List.length_singleton] at hm ⊢
    obtain rfl : ps = [] := by simpa [Trees.count] using hcount
    rw [Trees.bind, Trees.exprs, bindArguments]
    refine Agrees.bind (e.agreesAt hcalls 0 ht hm.left) ?_
    rintro v _ rfl
    exact Agrees.checkFits_bind ⟨_, rfl, by rw [hinner, Environment.with_override]⟩
  | .more e rest =>
    rw [Trees.wellCalled, Bool.and_eq_true] at ht
    rw [Trees.tokens, List.length_append, List.length_cons, Nat.add_comm rest.tokens.length] at hm ⊢
    obtain ⟨q, qs, rfl⟩ : ∃ q qs, ps = q :: qs := by
      cases ps with
      | nil => cases rest <;> simp [Trees.count] at hcount
      | cons q qs => exact ⟨q, qs, rfl⟩
    rw [Trees.bind, Trees.exprs, bindArguments]
    refine Agrees.bind (e.agreesAt hcalls 0 ht.1 hm.left) ?_
    rintro v _ rfl
    refine Agrees.checkFits_bind (Agrees.skip_bind ?_)
    refine rest.bindArguments_agrees hcalls ht.2 ?_ hm.moved.moved ?_
    · simpa [Trees.count] using hcount
    · rw [hinner, Environment.with_override]
      rfl

end

end Trees

/-- Where a body is held, it is read as its tree, and the statement ends after it. -/
theorem Machine.HoldsBody.reads {p : Program} {body : Tree} {loc : Location}
    (h : HoldsBody p body loc) : ∃ tokens, p.tokensOf? loc.line = some tokens ∧
      Expr.read (tokens.drop loc.index) = body.exprAt 0 ∧
      loc.index + body.tokens.length ≤ tokens.length ∧
      ∀ t ∈ (tokens.drop (loc.index + body.tokens.length)).head?, t.endsStatement := by
  obtain ⟨tokens, tail, htokens, hdrop, hend⟩ := h
  have hrest : tokens.drop (loc.index + body.tokens.length) = tail := by
    rw [← List.drop_drop, hdrop, List.drop_left]
  refine ⟨tokens, htokens, ?_, ?_, by rwa [hrest]⟩
  · rw [hdrop]
    exact Tree.read_tokens (ends_of_endsStatement hend)
  · have hlength := congrArg List.length hdrop
    have hpos := List.length_pos_iff.mpr (body.tokensAt_ne_nil 0)
    simp only [Tree.tokens, List.length_drop, List.length_append] at hlength hpos ⊢
    omega

/-- Calls agree with their meaning, however many of them may nest. -/
theorem callsAgree (defs : Definitions) (calls : Nat) : CallsAgree defs calls := by
  induction calls with
  | zero =>
    intro m name d body params hm _ _
    refine ⟨m, ?_⟩
    rw [bind_apply, pushFunction_overflow hm.callsLeft]
  | succ calls ih =>
    intro m name d body params hm hd hbody
    obtain ⟨-, hwell, -⟩ := hm.defines name d hd
    obtain ⟨tokens, htokens, hread, hroom, hend⟩ := hbody.reads
    have hpush := pushFunction_inside hm.callsLeft params htokens (by omega)
    -- the body is evaluated one call further in, where the induction hypothesis applies
    have hvalue := d.body.agreesAt ih 0 hwell (hm.inside params htokens hroom)
    rw [inside_lookup] at hvalue
    have hrun : ∀ r, evalWith (bodyAt calls) (d.body.exprAt 0) (m.inside params body tokens) = r →
        (do evalWith (bodyAt calls) (Expr.read (← get).program.rest) : Eval Value)
          (m.inside params body tokens) = r := by
      intro r hr
      rw [get_bind_apply]
      exact (congrArg (fun e => evalWith (bodyAt calls) e _) hread).trans hr
    have hcall : (do onProgram (Program.pushFunction params body); bodyAt (calls + 1) name) m =
        bodyAt (calls + 1) name (m.inside params body tokens) := by
      rw [bind_apply, hpush]
    change Agrees Eq _ m 0
      ((d.body.value defs calls fun name => params[name]?.getD (m.lookup name)) >>=
        fun v => v.checkedFor name)
    cases hbodyValue : d.body.value defs calls fun name => params[name]?.getD (m.lookup name) with
    | error e =>
      rw [hbodyValue] at hvalue
      obtain ⟨m', hvalue⟩ := hvalue
      obtain ⟨m'', herror⟩ := evalBody_error name (hrun _ hvalue)
      exact ⟨m'', hcall.trans herror⟩
    | ok v =>
      rw [hbodyValue] at hvalue
      obtain ⟨v', hvalue, rfl⟩ := hvalue
      have hbodyAt := hcall.trans (evalBody_inside name hm (hrun _ hvalue) hend)
      change Agrees Eq _ m 0 (v'.checkedFor name)
      rw [Value.checkedFor]
      cases hfits : v'.fits name with
      | true => exact ⟨v', hbodyAt.trans (by rw [hfits]; rfl), rfl⟩
      | false => exact ⟨m, hbodyAt.trans (by rw [hfits]; rfl)⟩

/-- Evaluation refines the meaning of trees: where the tokens of a tree stand, followed by the end
of the line or by a token that cannot go on with the expression, evaluating the expression there
gives exactly the value of the tree and moves behind its tokens, or fails with the first error of
the tree. -/
theorem Tree.expression_eq_value {m : Machine} {defs : Definitions} {t : Tree} {tail : List Token}
    (hline : m.program.tokensOf? m.program.location.line = some m.program.current)
    (hdefs : m.Defines defs) (ht : t.wellCalled defs)
    (hrest : m.program.rest = t.tokens ++ tail) (htail : Ends t.tokens tail) :
    match t.value defs m.callsLeft m.lookup with
    | .ok v => expression m = .ok v (m.moved t.tokens.length)
    | .error e => ∃ m', expression m = .error e m' := by
  have hlength := congrArg List.length hrest
  have hpos := List.length_pos_iff.mpr (t.tokensAt_ne_nil 0)
  simp only [Program.rest, Tree.tokens, List.length_drop, List.length_append] at hlength hpos
  have hprepared : m.Prepared defs m.callsLeft (t.tokensAt 0).length :=
    ⟨hline, by omega, hdefs, rfl⟩
  have hagrees := t.agreesAt (callsAgree defs m.callsLeft) 0 ht hprepared
  have hexpression : expression m = evalWith (bodyAt m.callsLeft) (t.exprAt 0) m := by
    rw [expression, get_bind_apply, hrest, Tree.read_tokens htail]
  rw [hexpression]
  cases hvalue : t.value defs m.callsLeft m.lookup with
  | error e =>
    rw [hvalue] at hagrees
    exact hagrees
  | ok v =>
    rw [hvalue] at hagrees
    obtain ⟨v', heval, rfl⟩ := hagrees
    exact heval

/-! A function of one parameter whose body also uses a variable of the caller. -/

/-- The function `FNA(X) = X * Y + 1`. -/
def scaled : Definitions := fun name =>
  if name = utf8 "FNA" then
    some ⟨[utf8 "X"],
      .binary .add (.binary .multiply (.scalar (utf8 "X")) (.scalar (utf8 "Y"))) (.number 1)⟩
  else none

/-- The tree of `2 * (FNA(4) - Y)`. -/
def scaledCall : Tree :=
  .binary .multiply (.number 2)
    (.binary .subtract (.call (utf8 "FNA") (.last (.number 4))) (.scalar (utf8 "Y")))

/-- A machine with `Y = 3` and the function on line 10, at the start of an immediate line. -/
def scaledMachine : Machine where
  maxElements := 100
  random := ⟨0⟩
  lastRandom := 0
  scalars := (∅ : Std.ExtTreeMap Name Value).insert (utf8 "Y") (.num 3)
  functions :=
    (∅ : Std.ExtTreeMap Name Function).insert (utf8 "FNA") ⟨utf8 "X", [], ⟨.numbered 10, 6⟩⟩
  program :=
    { maxCalls := 1
      maxLoops := 1
      lines := (∅ : Std.ExtTreeMap Nat (List Token)).insert 10
        [.keyword .DEF, .symbol (utf8 "FNA"), .mark .lparen, .symbol (utf8 "X"), .mark .rparen,
          .mark .equal, .symbol (utf8 "X"), .mark .star, .symbol (utf8 "Y"), .mark .plus, .number 1]
      immediate := scaledCall.tokens ++ [.mark .colon]
      current := scaledCall.tokens ++ [.mark .colon] }

theorem scaledMachine_defines : scaledMachine.Defines scaled := by
  intro name d hd
  simp only [scaled] at hd
  split at hd
  · next hname =>
    subst hname
    obtain rfl := Option.some.inj hd
    refine ⟨by decide, by decide, _, by rfl, by rfl, _, [], by rfl, by rfl, by simp⟩
  · cases hd

/-- With `Y = 3`, `2 * (FNA(4) - Y)` is `2 * (4 * 3 + 1 - 3)`. -/
theorem Tree.expression_scaledCall :
    scaledMachine.program.rest = scaledCall.tokens ++ [.mark .colon] ∧
      expression scaledMachine = .ok (.num (2 * (4 * 3 + 1 - 3))) (scaledMachine.moved 10) := by
  have hvalue : scaledCall.value scaled 1 scaledMachine.lookup =
      .ok (.num (2 * (4 * 3 + 1 - 3))) := by
    simp only [scaledCall, Tree.value, Trees.bind, scaled, if_true]
    rfl
  have h := @Tree.expression_eq_value scaledMachine scaled scaledCall [.mark .colon] rfl
    scaledMachine_defines (by decide) rfl (by simp [Ends, BinaryOp.ofToken?])
  rw [show scaledMachine.callsLeft = 1 from rfl, hvalue] at h
  exact ⟨rfl, h⟩

end LineBasic
