import LineBasic.Proofs.Expr.Reading
import LineBasic.Proofs.Expr.Refinement
import LineBasic.Proofs.Machine.Assign
import LineBasic.Proofs.Machine.Consistency

/-!
# What was assigned is what is read

A target and an expression are read from the same tokens, but they are resolved in different ways.
A target with subscripts is always an array element. In an expression a name in front of a
parenthesis is looked up among the built-in functions first, then among the functions that are
defined, and only then among the arrays. So an element of an array whose name is that of a function
can be assigned and cannot be read. In every other case, what was assigned is read again from the
same tokens.

## Main definitions

* `LiteralTarget` — a target as it is written, with literals for subscripts
* `LiteralTarget.Shadowed` — a function hides the target from expressions
* `Machine.ReadsAfter` — what a target reads as after an assignment to it

## Main results

* `Machine.evalArguments_literals` — literals are their own values
* `Machine.target_eq` — the target that is read from the tokens
* `Machine.assigned_is_read` — a target that no function hides reads as what was assigned to it
* `Machine.assigned_not_always_read` — what is assigned under the name of a function is hidden
-/

namespace LineBasic

/-! ### Targets as they are written -/

/-- A value as it is written. -/
def Value.literal : Value → Tree
  | .num x => .number x
  | .str s => .string s

/-- Values as they are written in an argument list. -/
def Trees.literals : (first : Value) → (others : List Value) → Trees
  | v, [] => .last v.literal
  | v, w :: ws => .more v.literal (literals w ws)

/-- A target as it is written, with literals for subscripts. -/
inductive LiteralTarget where
  /-- A scalar variable. -/
  | scalar (name : Name)
  /-- An array element, with at least one subscript. -/
  | element (name : Name) (first : Value) (others : List Value)

namespace LiteralTarget

/-- The tree that the tokens of a target are as an expression. -/
def tree : LiteralTarget → Tree
  | .scalar name => .scalar name
  | .element name v vs => .call name (.literals v vs)

/-- The tokens of a target. -/
def tokens (w : LiteralTarget) : List Token :=
  w.tree.tokens

theorem length_tokens (name : Name) (v : Value) (vs : List Value) :
    (element name v vs).tokens.length = 2 + (Trees.literals v vs).tokens.length :=
  Nat.add_comm _ 2

/-- The target that is written, unless a subscript is no index. -/
def target : LiteralTarget → Except Cause Target
  | .scalar name => .ok (.scalar name)
  | .element name v vs => (Machine.indices (v :: vs)).map (.element name)

/-- In an expression, the name of a function hides the array of that name. -/
def Shadowed (w : LiteralTarget) (functions : Std.ExtTreeMap Name Function) : Prop :=
  match w with
  | .scalar _ => False
  | .element name _ _ => Builtin.find? name ≠ none ∨ functions[name]? ≠ none

end LiteralTarget

namespace Machine

variable {m m' : Machine} {w : LiteralTarget} {t : Target} {v : Value}

/-! ### Literals -/

theorem skip_apply (n : Nat) (m : Machine) : skip n m = .ok () (m.moved n) := rfl

theorem evalWith_literal (body : Name → Eval Value) (v : Value) (m : Machine) :
    evalWith body (v.literal.exprAt 0) m = .ok v (m.moved 1) := by
  cases v <;> rfl

theorem length_tokensAt_literal (v : Value) : (v.literal.tokensAt 0).length = 1 := by
  cases v <;> rfl

/-- Literals are their own values, up to the closing parenthesis. -/
theorem evalArguments_literals (body : Name → Eval Value) (v : Value) (vs : List Value)
    (m : Machine) :
    evalArguments body (Trees.literals v vs).exprs m =
      .ok (v :: vs) (m.moved (Trees.literals v vs).tokens.length) := by
  induction vs generalizing v m with
  | nil =>
    have hlength : (Trees.literals v []).tokens.length = 1 + 1 := by
      rw [Trees.literals, Trees.tokens, List.length_append, length_tokensAt_literal]
      rfl
    rw [hlength, ← moved_moved, Trees.literals, Trees.exprs, evalArguments, bind_apply,
      evalWith_literal]
    rfl
  | cons u us ih =>
    have hlength : (Trees.literals v (u :: us)).tokens.length =
        1 + 1 + (Trees.literals u us).tokens.length := by
      rw [Trees.literals, Trees.tokens, List.length_append, length_tokensAt_literal,
        List.length_cons]
      omega
    rw [hlength, ← moved_moved, ← moved_moved, Trees.literals, Trees.exprs, evalArguments,
      bind_apply, evalWith_literal]
    dsimp only
    rw [bind_apply, skip_apply]
    dsimp only
    rw [bind_apply, ih]
    rfl

/-- Literal subscripts are read up to the closing parenthesis, and then they are indices or not. -/
theorem subscripts_literals {vs : List Value} {rest : List Token}
    (h : m.program.rest = (Trees.literals v vs).tokens ++ rest) :
    subscripts m =
      ofExcept (indices (v :: vs)) (m.moved (Trees.literals v vs).tokens.length) := by
  have hread : (Arguments.read m.program.rest).phrase = (Trees.literals v vs).exprs := by
    rw [h]
    exact congrArg Prod.fst (Trees.parse_tokens _ rest)
  rw [subscripts, get_bind_apply, hread, bind_apply, evalArguments_literals]

/-! ### Targets -/

/-- The target that is read from the tokens, when no parenthesis comes behind them. -/
theorem target_eq {rest : List Token} (h : m.program.rest = w.tokens ++ rest)
    (hrest : rest.head? ≠ some (.mark .lparen)) :
    target m = ofExcept w.target (m.moved w.tokens.length) := by
  cases w with
  | scalar name =>
    have hname : m.program.rest = .symbol name :: rest := h
    exact target_scalar hname hrest
  | element name v vs =>
    have hopen : m.program.rest =
        .symbol name :: .mark .lparen :: ((Trees.literals v vs).tokens ++ rest) := h
    have hmoved : m.past.past.moved (Trees.literals v vs).tokens.length =
        m.moved (LiteralTarget.element name v vs).tokens.length := by
      rw [LiteralTarget.length_tokens, ← moved_moved]
      rfl
    rw [target_element hopen, bind_apply, subscripts_literals (rest_past (rest_past hopen)), hmoved,
      LiteralTarget.target]
    cases indices (v :: vs) <;> rfl

/-! ### Reading what was assigned -/

theorem element_of_set {name : Name} {index : List Int} {g : Grid}
    (h : (match g.set index v with
        | .ok g' => .ok () { m with arrays := m.arrays.insert name g' }
        | .error c => .error c m : EStateM.Result Cause Machine Unit) = .ok () m') :
    m'.functions = m.functions ∧ m'.program = m.program ∧
      ∃ g, m'.arrays[name]? = some g ∧ g.get index = .ok v := by
  cases hset : g.set index v with
  | ok g' =>
    rw [hset] at h
    cases h
    obtain ⟨-, hindex, rfl⟩ := Grid.set_eq_ok_iff.mp hset
    exact ⟨rfl, rfl, g.put index v, arrays_insert_self m name _, Grid.get_put hindex⟩
  | error c =>
    rw [hset] at h
    cases h

/-- An element that was assigned is there, and the functions and the program are as they were. -/
theorem element_of_assign {name : Name} {index : List Int}
    (h : assign (.element name index) v m = .ok () m') :
    m'.functions = m.functions ∧ m'.program = m.program ∧
      ∃ g, m'.arrays[name]? = some g ∧ g.get index = .ok v := by
  by_cases hv : v.fits name = true
  · rw [assign_element hv] at h
    rcases arrayFor_cases name index.length m with
      ⟨g, -, harray⟩ | ⟨g, -, -, harray⟩ | ⟨c, harray⟩
    · rw [harray] at h
      exact element_of_set h
    · -- the array is made first, and that leaves the functions alone
      rw [harray] at h
      exact element_of_set (m := { m with arrays := m.arrays.insert name g }) h
    · rw [harray] at h
      cases h
  · rw [assign_of_not_fits (t := .element name index) hv] at h
    cases h

/-- A scalar that was assigned is there. -/
theorem scalar_of_assign {name : Name} (h : assign (.scalar name) v m = .ok () m') :
    m'.global name = v := by
  by_cases hv : v.fits name = true
  · rw [assign_scalar hv] at h
    cases h
    rw [global, Std.ExtTreeMap.getElem?_insert_self]
    rfl
  · rw [assign_of_not_fits (t := .scalar name) hv] at h
    cases h

/-- Where no function is pending, no variable is a parameter. -/
theorem lookup_eq_global (h : ∀ f ∈ m.program.calls, f.isFunction = false) (name : Name) :
    m.lookup name = m.global name := by
  have hparam : m.program.param? name = none := by
    refine List.findSome?_eq_none_iff.mpr fun f hf => ?_
    cases f with
    | gosub ret => exact Std.ExtTreeMap.getElem?_empty
    | function ret params => exact Bool.noConfusion (h _ hf)
  rw [lookup, hparam]
  rfl

theorem expression_eq {rest : List Token} (h : m.program.rest = w.tokens ++ rest)
    (hrest : Ends w.tokens rest) :
    expression m = evalWith (bodyAt m.callsLeft) (w.tree.exprAt 0) m := by
  rw [expression, get_bind_apply, h, LiteralTarget.tokens, Tree.read_tokens hrest]

/-- The name of a built-in function is never looked up among the arrays. -/
theorem evalWith_builtin {name : Name} {b : Builtin} (h : Builtin.find? name = some b)
    (body : Name → Eval Value) (u : Value) (vs : List Value) (m : Machine) :
    evalWith body (.call name (Trees.literals u vs).exprs) m =
      applyBuiltin b (u :: vs) (m.moved (LiteralTarget.element name u vs).tokens.length) := by
  rw [LiteralTarget.length_tokens, evalWith, bind_apply, skip_apply]
  simp only [h]
  rw [bind_apply, evalArguments_literals, moved_moved]

/-- Where no function hides it, an element that is there is read. -/
theorem evalWith_element {name : Name} {vs : List Value} {index : List Int} {g : Grid} {u : Value}
    (hbuiltin : Builtin.find? name = none) (hfunction : m.functions[name]? = none)
    (hindex : indices (u :: vs) = .ok index) (hg : m.arrays[name]? = some g)
    (hv : g.get index = .ok v) (body : Name → Eval Value) :
    evalWith body (.call name (Trees.literals u vs).exprs) m =
      .ok v (m.moved (LiteralTarget.element name u vs).tokens.length) := by
  have hnone : (m.moved 2).functions[name]? = none := hfunction
  have harray := arrayFor_some (m := m.moved (LiteralTarget.element name u vs).tokens.length) hg
    index.length
  rw [LiteralTarget.length_tokens] at harray ⊢
  rw [evalWith, bind_apply, skip_apply]
  simp only [hbuiltin, get_bind_apply, hnone]
  rw [bind_apply, evalArguments_literals, moved_moved]
  dsimp only
  rw [bind_apply, hindex]
  dsimp only [ofExcept]
  rw [bind_apply, harray]
  dsimp only
  rw [hv]
  rfl

/-- The machine in front of an immediate line that is `w`. -/
def facing (m : Machine) (w : LiteralTarget) : Machine :=
  { m with program := m.program.setImmediate w.tokens }

theorem rest_facing (m : Machine) (w : LiteralTarget) :
    (m.facing w).program.rest = w.tokens ++ [] :=
  (List.append_nil w.tokens).symm

/-- A value `v` is assigned to the target that `w` is on an immediate line, and then the value that
`w` has as an expression is `u`. -/
def ReadsAfter (m : Machine) (w : LiteralTarget) (v u : Value) : Prop :=
  ∃ t n' m' e, target (m.facing w) = .ok t n' ∧ assign t v m = .ok () m' ∧
    expression (m'.facing w) = .ok u e

theorem ends_nil (ts : List Token) : Ends ts [] :=
  fun _ h => nomatch h

theorem exists_of_run' {ε σ α : Type} {x : EStateM ε σ α} {s : σ} {a : α}
    (h : EStateM.run' x s = some a) : ∃ s', x s = .ok a s' := by
  delta EStateM.run' EStateM.run at h
  cases hx : x s with
  | ok b s' =>
    rw [hx] at h
    cases h
    exact ⟨s', rfl⟩
  | error _ _ =>
    rw [hx] at h
    cases h

/-- What was assigned to a target is what its tokens read as, if no function hides it: right after
an assignment to the target that is written by `w`, an expression that is `w` has the value that was
assigned. It is read between statements, where no function is pending. -/
theorem assigned_is_read {n n' : Machine} {before after : List Token} {p : Program}
    (hwritten : n.program.rest = w.tokens ++ before)
    (hbefore : before.head? ≠ some (.mark .lparen)) (htarget : target n = .ok t n')
    (hshadowed : ¬w.Shadowed m.functions) (hassign : assign t v m = .ok () m')
    (hread : p.rest = w.tokens ++ after) (hafter : Ends w.tokens after)
    (hcalls : ∀ f ∈ p.calls, f.isFunction = false) :
    expression { m' with program := p } =
      .ok v ({ m' with program := p }.moved w.tokens.length) := by
  have htarget : w.target = .ok t := by
    rw [target_eq hwritten hbefore] at htarget
    cases hw : w.target with
    | ok t' =>
      rw [hw] at htarget
      cases htarget
      rfl
    | error c =>
      rw [hw] at htarget
      cases htarget
  rw [expression_eq (m := { m' with program := p }) hread hafter]
  cases w with
  | scalar name =>
    cases htarget
    have hlookup := lookup_eq_global (m := { m' with program := p }.moved 1) hcalls name
    have hglobal := scalar_of_assign hassign
    change EStateM.Result.ok (({ m' with program := p }.moved 1).lookup name) _ = _
    rw [hlookup]
    exact congrArg (EStateM.Result.ok · _) hglobal
  | element name u vs =>
    have hvisible := not_or.mp hshadowed
    cases hindex : indices (u :: vs) with
    | ok index =>
      rw [LiteralTarget.target, hindex] at htarget
      cases htarget
      obtain ⟨hfunctions, -, g, hg, hv⟩ := element_of_assign hassign
      have hfunction : m'.functions[name]? = none := by
        rw [hfunctions]
        exact not_not.mp hvisible.2
      exact evalWith_element (m := { m' with program := p }) (not_not.mp hvisible.1) hfunction
        hindex hg hv _
    | error c =>
      rw [LiteralTarget.target, hindex] at htarget
      cases htarget

/-- `A(3)`, as a target. -/
def elementTarget : LiteralTarget := .element (utf8 "A") (.num 3) []

theorem assigned_is_read_element : (new {}).ReadsAfter elementTarget (.num 5) (.num 5) := by
  have htarget : elementTarget.target = .ok (.element (utf8 "A") [3]) := by decide +kernel
  obtain ⟨m', hassign⟩ : ∃ m', assign (.element (utf8 "A") [3]) (.num 5) (new {}) = .ok () m' :=
    exists_of_run' (by decide +kernel)
  have hwritten := target_eq (rest_facing (new {}) elementTarget) nofun
  rw [htarget] at hwritten
  have hshadowed : ¬elementTarget.Shadowed (new {}).functions := by
    rintro (h | h)
    · exact h (by decide +kernel)
    · exact h Std.ExtTreeMap.getElem?_empty
  have hcalls : ∀ f ∈ (m'.facing elementTarget).program.calls, f.isFunction = false := by
    rw [facing, (element_of_assign hassign).2.1]
    exact nofun
  exact ⟨_, _, m', _, hwritten, hassign, assigned_is_read (rest_facing _ _) nofun hwritten hshadowed
    hassign (rest_facing m' _) (ends_nil _) hcalls⟩

/-! ### Targets that functions hide -/

/-- `ABS(1)`. -/
def absTarget : LiteralTarget := .element (utf8 "ABS") (.num 1) []

/-- `FNA(3)`. -/
def fnaTarget : LiteralTarget := .element (utf8 "FNA") (.num 3) []

theorem ReadsAfter.intro {u : Value} {e : Machine} (htarget : w.target = .ok t)
    (hassign : assign t v m = .ok () m')
    (hread : evalWith (bodyAt (m'.facing w).callsLeft) (w.tree.exprAt 0) (m'.facing w) = .ok u e) :
    m.ReadsAfter w v u := by
  have hwritten := target_eq (rest_facing m w) nofun
  rw [htarget] at hwritten
  have hexpression := expression_eq (rest_facing m' w) (ends_nil w.tokens)
  exact ⟨t, _, m', e, hwritten, hassign, hexpression.trans hread⟩

theorem readsAfter_abs : (new {}).ReadsAfter absTarget (.num 5) (.num 1) := by
  have htarget : absTarget.target = .ok (.element (utf8 "ABS") [1]) := by decide +kernel
  obtain ⟨m', hassign⟩ : ∃ m', assign (.element (utf8 "ABS") [1]) (.num 5) (new {}) = .ok () m' :=
    exists_of_run' (by decide +kernel)
  exact .intro htarget hassign
    (evalWith_builtin (b := .abs) (by decide +kernel) _ (.num 1) [] _)

/-- The tokens of `DEF FNA(X)=X`. -/
def fnaLine : List Token :=
  [.keyword .DEF, .symbol (utf8 "FNA"), .mark .lparen, .symbol (utf8 "X"), .mark .rparen,
    .mark .equal, .symbol (utf8 "X")]

/-- A function that yields its argument. -/
def identity : Definitions := fun name =>
  if name = utf8 "FNA" then some ⟨[utf8 "X"], .scalar (utf8 "X")⟩ else none

theorem value_fnaTarget (calls : Nat) (env : Environment) :
    fnaTarget.tree.value identity (calls + 1) env = .ok (.num 3) := by
  have hX : Value.checkedFor (utf8 "X") (.num 3) = .ok (.num 3) := by decide +kernel
  have hFNA : Value.checkedFor (utf8 "FNA") (.num 3) = .ok (.num 3) := by decide +kernel
  have hdefined : identity (utf8 "FNA") = some ⟨[utf8 "X"], .scalar (utf8 "X")⟩ := if_pos rfl
  rw [fnaTarget, LiteralTarget.tree, Trees.literals, Value.literal, Tree.value, hdefined]
  simp only [Trees.bind, Tree.value, bind, Except.bind, hX, Environment.with, if_true, hFNA]

theorem readsAfter_fna {f : Function} {calls : Nat}
    (hf : m.functions[utf8 "FNA"]? = some f) (hparams : f.params = [utf8 "X"])
    (hbody : HoldsBody (m.facing fnaTarget).program (.scalar (utf8 "X")) f.body)
    (hcalls : (m.facing fnaTarget).callsLeft = calls + 1)
    (hassign : EStateM.run' (assign (.element (utf8 "FNA") [3]) (.num 7)) m = some ()) :
    m.ReadsAfter fnaTarget (.num 7) (.num 3) := by
  obtain ⟨m', hassign⟩ := exists_of_run' hassign
  obtain ⟨hfunctions, hprogram, -⟩ := element_of_assign hassign
  have hfacing : (m'.facing fnaTarget).program = (m.facing fnaTarget).program :=
    congrArg (·.setImmediate fnaTarget.tokens) hprogram
  have hcalls' : (m'.facing fnaTarget).callsLeft = calls + 1 := by
    rw [callsLeft, hfacing]
    exact hcalls
  -- an assignment changes neither functions nor calls, so the call goes the same way
  have hprepared : (m'.facing fnaTarget).Prepared identity (calls + 1)
      (fnaTarget.tree.tokensAt 0).length := by
    refine ⟨rfl, Nat.le_of_eq (Nat.zero_add _), fun name d hd => ?_, hcalls'⟩
    by_cases hname : name = utf8 "FNA"
    · subst hname
      rw [identity, if_pos rfl] at hd
      cases hd
      refine ⟨by decide +kernel, rfl, f, ?_, hparams, hfacing ▸ hbody⟩
      exact (congrArg (·[utf8 "FNA"]?) hfunctions).trans hf
    · rw [identity, if_neg hname] at hd
      cases hd
  have hagrees := Tree.agreesAt (callsAgree identity (calls + 1)) fnaTarget.tree 0
    (by decide +kernel) hprepared
  rw [value_fnaTarget] at hagrees
  obtain ⟨u, hread, rfl⟩ := hagrees
  rw [← hcalls'] at hread
  exact .intro (by decide +kernel) hassign hread

/-- Not everything that was assigned is read: after `ABS(1)=5`, and after `FNA(3)=7` when the
program has defined the function `FNA(X)=X`, the same tokens are calls of these functions. -/
theorem assigned_not_always_read :
    (Reachable {} (new {}) ∧ (new {}).ReadsAfter absTarget (.num 5) (.num 1)) ∧
      ∃ m, Reachable {} m ∧ m.ReadsAfter fnaTarget (.num 7) (.num 3) := by
  refine ⟨⟨.start, readsAfter_abs⟩, ?_⟩
  have h : Reachable {} ((((new {}).perform (.submit (utf8 "10 DEF FNA(X)=X"))).perform
      (.submit (utf8 "RUN"))).perform .step) := .perform _ (.perform _ (.perform _ .start))
  have hread : (Token.read (Bytes.trimLineEnds (utf8 "10 DEF FNA(X)=X"))).map numbered? =
      .ok (some (10, fnaLine)) := by decide +kernel
  rw [perform_numbered (by decide +kernel) (by decide +kernel) hread,
    perform_run (by decide +kernel) (startAtFirst?_singleton rfl)] at h
  exact ⟨_, h, readsAfter_fna (f := ⟨utf8 "X", [], ⟨.numbered 10, 6⟩⟩) (by decide +kernel) rfl
    ⟨fnaLine, [], by decide +kernel, rfl, nofun⟩ (by decide +kernel : _ = 255 + 1)
    (by decide +kernel)⟩

end Machine

end LineBasic
