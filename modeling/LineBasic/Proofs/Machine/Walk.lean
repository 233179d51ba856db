import LineBasic.Proofs.Machine.EvalRules

/-!
# Evaluation stays on its line

Whether it succeeds or fails, and however deeply the functions that it calls nest, evaluation moves
along the tokens of the current line and nothing else happens to the program: no call is left
pending, and the location does not leave the line. Apart from that, random numbers may be drawn, and
arrays come into being at their first use.

An expression that succeeds has moved past exactly its own tokens. This is what carries the
induction over expressions, since it is what keeps the next part of an expression on the line. The
bodies of functions are on other lines and may be longer than the rest of the caller's, so the outer
induction is on the number of calls that may still nest.

## Main definitions

* `Machine.Walked` — what evaluation may change
* `Machine.Fit` — a machine on which expressions can be evaluated
* `Walks` — an evaluation that moves past a number of tokens
* `Returns` — calls that come back to where they were made

## Main results

* `Walks.expr`, `Walks.arguments`, `Walks.bound` — evaluation, given that calls come back
* `returns_bodyAt` — calls come back
* `Machine.Fit.expression`, `Machine.Fit.subscripts` — evaluation at the location
-/

namespace LineBasic

open Machine

namespace Machine

/-- `m'` is `m` further right on its line, and otherwise only random numbers were drawn and arrays
were added. -/
structure Walked (m m' : Machine) : Prop where
  program : m'.program = m.program.atIndex m'.program.location.index
  forward : m.program.location.index ≤ m'.program.location.index
  within : m'.program.location.index ≤ m.program.current.length
  same : m' =
    { m with
      program := m'.program
      arrays := m'.arrays
      random := m'.random
      lastRandom := m'.lastRandom }
  arrays : ∀ (name : Name) (g : Grid), m.arrays[name]? = some g → m'.arrays[name]? = some g

namespace Walked

variable {m m' m'' : Machine}

theorem refl (h : m.program.location.index ≤ m.program.current.length) : m.Walked m where
  program := rfl
  forward := Nat.le_refl _
  within := h
  same := rfl
  arrays _ _ h := h

theorem current (h : m.Walked m') : m'.program.current = m.program.current := by
  rw [h.program]
  rfl

theorem functions (h : m.Walked m') : m'.functions = m.functions := by
  rw [h.same]

theorem trans (h : m.Walked m') (h' : m'.Walked m'') : m.Walked m'' where
  program := by
    rw [h'.program, h.program]
    rfl
  forward := Nat.le_trans h.forward h'.forward
  within := h.current ▸ h'.within
  same := h'.same.trans (by rw [h.same])
  arrays name g hg := h'.arrays name g (h.arrays name g hg)

end Walked

/-- A machine on which expressions can be evaluated: the tokens are those of the line, the functions
are those of `F` and have their bodies, and `d` calls may nest. -/
structure Fit (F : Std.ExtTreeMap Name Function) (d : Nat) (m : Machine) : Prop where
  functions : m.functions = F
  synced : m.program.Synced
  bodies : ∀ (name : Name) (f : Function), F[name]? = some f →
    ∃ tokens, m.program.tokensOf? f.body.line = some tokens ∧ f.body.index ≤ tokens.length
  callsLeft : m.callsLeft = d

theorem Walked.fit {m m' : Machine} {F : Std.ExtTreeMap Name Function} {d : Nat}
    (h : m.Walked m') (hm : m.Fit F d) : m'.Fit F d := by
  have hprogram := h.program
  -- only the place on the line differs, and nothing here is about that place
  generalize m'.program.location.index = i at hprogram
  constructor
  · rw [h.functions, hm.functions]
  · rw [hprogram]
    exact hm.synced
  · rw [hprogram]
    exact hm.bodies
  · rw [callsLeft, hprogram]
    exact hm.callsLeft

end Machine

/-! ### Evaluation by the number of tokens -/

/-- An evaluation that moves past `k` tokens when it succeeds. When it fails, it does so for a cause
that expressions have. -/
def Walks {α : Type} (F : Std.ExtTreeMap Name Function) (d k : Nat) (x : Eval α) : Prop :=
  ∀ m : Machine, m.Fit F d →
    m.program.location.index + k ≤ m.program.current.length →
    Concludes
      (fun _ m' => m.Walked m' ∧ m'.program.location.index = m.program.location.index + k)
      (fun c m' => m.Walked m' ∧ c.inExpression = true) (x m)

namespace Walks

variable {α β : Type} {F : Std.ExtTreeMap Name Function} {d k l : Nat}

theorem bind {x : Eval α} {f : α → Eval β} (hx : Walks F d k x) (hf : ∀ a, Walks F d l (f a)) :
    Walks F d (k + l) (x >>= f) := by
  intro m hm hroom
  refine (hx m hm (by omega)).bind ?_
  rintro a m' ⟨hwalked, hindex⟩
  have hroom' : m'.program.location.index + l ≤ m'.program.current.length := by
    rw [hwalked.current]
    omega
  refine (hf a m' (hwalked.fit hm) hroom').mono ?_ ?_
  · rintro b m'' ⟨hwalked', hindex'⟩
    exact ⟨hwalked.trans hwalked', by omega⟩
  · rintro c m'' ⟨hwalked', hc⟩
    exact ⟨hwalked.trans hwalked', hc⟩

theorem pure (a : α) : Walks F d 0 (Pure.pure a) :=
  fun _ _ hroom => ⟨.refl hroom, rfl⟩

theorem throw {c : Cause} (hc : c.inExpression = true) :
    Walks F d k (MonadExcept.throw c : Eval α) :=
  fun _ _ hroom => ⟨.refl (Nat.le_trans (Nat.le_add_right _ _) hroom), hc⟩

theorem skip (n : Nat) : Walks F d n (skip n) := by
  intro m hm hroom
  refine ⟨⟨rfl, Nat.le_add_right _ _, hroom, rfl, fun _ _ h => h⟩, rfl⟩

theorem ofExcept {r : Except Cause α} (hr : FailsInExpression r) :
    Walks F d 0 (Machine.ofExcept r) := by
  intro m _ hroom
  cases r with
  | ok a => exact ⟨.refl hroom, rfl⟩
  | error c => exact ⟨.refl hroom, hr c rfl⟩

/-- Looking at the machine leaves it as it is. -/
theorem get_bind {f : Machine → Eval α} (hf : ∀ m : Machine, m.Fit F d → Walks F d k (f m)) :
    Walks F d k (get >>= f) :=
  fun m hm hroom => hf m hm m hm hroom

theorem checkFits (name : Name) (v : Value) : Walks F d 0 (checkFits name v) := by
  rw [Machine.checkFits]
  split
  · exact pure ()
  · exact throw rfl

/-- Drawing a random number. -/
theorem modify {f : Machine → Machine}
    (hf : ∀ m : Machine, ∃ random lastRandom, f m = { m with random, lastRandom }) :
    Walks F d 0 (modify f) := by
  intro m _ hroom
  obtain ⟨random, lastRandom, hfm⟩ := hf m
  rw [modify_apply, hfm]
  exact ⟨⟨rfl, Nat.le_refl _, hroom, rfl, fun _ _ h => h⟩, rfl⟩

/-- An array that is made at its first use leaves the other ones alone. -/
theorem arrayFor (name : Name) (axes : Nat) : Walks F d 0 (arrayFor name axes) := by
  intro m hm hroom
  rw [Machine.arrayFor, get_bind_apply]
  cases harray : m.arrays[name]? with
  | some g => exact pure g m hm hroom
  | none =>
    have hmake := Grid.failsInExpression_make name.isString (List.replicate axes implicitSize)
      m.maxElements
    simp only [bind_apply, Machine.ofExcept]
    cases hg : Grid.make name.isString (List.replicate axes implicitSize) m.maxElements with
    | error c => exact ⟨.refl hroom, hmake c hg⟩
    | ok g =>
      refine ⟨⟨rfl, Nat.le_refl _, hroom, rfl, fun other g' hother => ?_⟩, rfl⟩
      have hne : name ≠ other := by
        rintro rfl
        rw [harray] at hother
        cases hother
      change (m.arrays.insert name g)[other]? = some g'
      rw [Std.ExtTreeMap.getElem?_insert, if_neg (by simpa using hne), hother]

end Walks

/-! ### Expressions -/

/-- Calls of the functions in `F` come back to where they were made. -/
def Returns (F : Std.ExtTreeMap Name Function) (d : Nat) (body : Name → Eval Value) : Prop :=
  ∀ (name : Name) (f : Function) (params : Bindings), F[name]? = some f →
    Walks F d 0 (do onProgram (Program.pushFunction params f.body); body name)

/-- What succeeds moves past its tokens if its parts do, and each part has room on the line that the
parts before it leave. -/
theorem evalRules_walks (F : Std.ExtTreeMap Name Function) (d : Nat) :
    EvalRules (fun m => m.Fit F d) fun _ => Walks F d where
  pure := .pure
  throw _ _ hc := .throw hc
  bind := .bind
  look _ hf := .get_bind hf
  skip := .skip
  draw := .modify fun _ => ⟨_, _, rfl⟩
  arrayFor := .arrayFor

section Expressions

variable {F : Std.ExtTreeMap Name Function} {d : Nat} {body : Name → Eval Value}

theorem Returns.calls (hbody : Returns F d body) :
    EvalRules.Calls (fun m => m.Fit F d) (fun _ => Walks F d) body :=
  fun _ name f params hm hf => hbody name f params (hm.functions ▸ hf)

/-- An expression moves past its tokens if calls come back. -/
theorem Walks.expr (hbody : Returns F d body) (e : Expr) : Walks F d e.width (evalWith body e) :=
  (evalRules_walks F d).expr hbody.calls e

/-- So does an argument list. -/
theorem Walks.arguments (hbody : Returns F d body) (args : Arguments) :
    Walks F d args.width (evalArguments body args) :=
  (evalRules_walks F d).arguments hbody.calls args

/-- So does an argument list that is bound to parameters, which may end early. -/
theorem Walks.bound (hbody : Returns F d body) (args : Arguments) (p : Name) (ps : List Name)
    (params : Bindings) : Walks F d args.width (bindArguments body p ps args params) :=
  (evalRules_walks F d).bound hbody.calls args p ps params

end Expressions

/-! ### Calls -/

section Calls

variable {α : Type} {F : Std.ExtTreeMap Name Function} {d : Nat} {m : Machine}

theorem Program.length_rest (p : Program) :
    p.rest.length = p.current.length - p.location.index :=
  List.length_drop

/-- The expression at the location is on the line. -/
theorem Program.width_read_le {p : Program} (h : p.location.index ≤ p.current.length) :
    p.location.index + (Expr.read p.rest).width ≤ p.current.length := by
  have hwidth := Expr.width_read_le p.rest
  rw [Program.length_rest] at hwidth
  omega

/-- The arguments at the location are on the line. -/
theorem Program.width_arguments_le {p : Program} (h : p.location.index ≤ p.current.length) :
    p.location.index + (Arguments.read p.rest).phrase.width ≤ p.current.length := by
  have hwidth := Arguments.width_read_le p.rest
  rw [Program.length_rest] at hwidth
  omega

/-- A function that keeps to its own line comes back to where it was called. -/
theorem concludes_inFunction {x : Eval α} {params : Bindings} {body : Location}
    {tokens : List Token} (hsynced : m.program.Synced)
    (hindex : m.program.location.index ≤ m.program.current.length)
    (hx : Concludes (fun _ m' => (m.inside params body tokens).Walked m')
      (fun c m' => (m.inside params body tokens).Walked m' ∧ c.inExpression = true)
      (x (m.inside params body tokens))) :
    Concludes
      (fun _ m' => m.Walked m' ∧ m'.program.location.index = m.program.location.index)
      (fun c m' => m.Walked m' ∧ c.inExpression = true)
      (inFunction x (m.inside params body tokens)) := by
  have hback : ∀ m' : Machine, (m.inside params body tokens).Walked m' →
      onProgram Program.popFunction m' = .ok () { m' with program := m.program } ∧
        m.Walked { m' with program := m.program } := by
    intro m' hwalked
    refine ⟨popFunction_inside hsynced hindex hwalked.program, rfl, Nat.le_refl _, hindex, ?_,
      hwalked.arrays⟩
    rw [hwalked.same]
    rfl
  rw [inFunction]
  cases hend : x (m.inside params body tokens) with
  | ok a m' =>
    rw [hend] at hx
    obtain ⟨hpop, hwalked⟩ := hback m' hx
    simp only [hpop]
    exact ⟨hwalked, rfl⟩
  | error c m' =>
    rw [hend] at hx
    obtain ⟨hpop, hwalked⟩ := hback m' hx.1
    simp only [hpop]
    exact ⟨hwalked, hx.2⟩

/-- What is asked of the value of a function when its body has been evaluated. -/
def checkBody (name : Name) (v : Value) : Eval Value := do
  let p := (← get).program
  if !p.atStatementEnd then throw (.unexpected p.peekKind?)
  checkFits name v
  return v

theorem Walks.checkBody (name : Name) (v : Value) : Walks F d 0 (checkBody name v) := by
  refine Walks.get_bind fun m _ => ?_
  dsimp only
  split
  · exact Walks.throw rfl
  · exact Walks.bind (l := 0) (Walks.checkFits name v) fun _ => Walks.pure v

/-- The body of a function, from where its expression starts. -/
def bodyExpression (d : Nat) (name : Name) : Eval Value := do
  checkBody name (← evalWith (bodyAt d) (Expr.read (← get).program.rest))

/-- The body is read from its own line, so it ends on that line. -/
theorem concludes_bodyExpression (hd : Returns F d (bodyAt d)) (name : Name) (hm : m.Fit F d)
    (hindex : m.program.location.index ≤ m.program.current.length) :
    Concludes (fun _ m' => m.Walked m') (fun c m' => m.Walked m' ∧ c.inExpression = true)
      (bodyExpression d name m) := by
  rw [bodyExpression, get_bind_apply]
  have hwalks := Walks.bind (l := 0) (Walks.expr hd _) (Walks.checkBody name) m hm
    (Program.width_read_le hindex)
  exact hwalks.mono (fun _ _ h => h.1) fun _ _ h => h

/-- Calls come back, however deeply they nest. -/
theorem returns_bodyAt (d : Nat) : Returns F d (bodyAt d) := by
  induction d with
  | zero =>
    intro name f params hf m hm hroom
    rw [bind_apply, pushFunction_overflow hm.callsLeft]
    exact ⟨.refl hroom, rfl⟩
  | succ d ih =>
    intro name f params hf m hm hroom
    obtain ⟨tokens, htokens, hindex⟩ := hm.bodies name f hf
    rw [bind_apply, pushFunction_inside hm.callsLeft params htokens hindex]
    have hinside : (m.inside params f.body tokens).Fit F d :=
      ⟨hm.functions, htokens, hm.bodies, callsLeft_inside hm.callsLeft _ _ _⟩
    exact concludes_inFunction hm.synced hroom (concludes_bodyExpression ih name hinside hindex)

end Calls

/-! ### Evaluation at the location -/

namespace Machine.Fit

variable {m : Machine}

/-- The expression at the location keeps to the line. -/
theorem expression (hm : m.Fit m.functions m.callsLeft)
    (hindex : m.program.location.index ≤ m.program.current.length) :
    Concludes
      (fun _ m' => m.Walked m' ∧ m'.program.location.index =
        m.program.location.index + (Expr.read m.program.rest).width)
      (fun c m' => m.Walked m' ∧ c.inExpression = true) (Machine.expression m) :=
  Walks.expr (returns_bodyAt m.callsLeft) _ m hm (Program.width_read_le hindex)

/-- The subscripts at the location keep to the line. -/
theorem subscripts (hm : m.Fit m.functions m.callsLeft)
    (hindex : m.program.location.index ≤ m.program.current.length) :
    Concludes
      (fun _ m' => m.Walked m' ∧ m'.program.location.index =
        m.program.location.index + (Arguments.read m.program.rest).phrase.width)
      (fun c m' => m.Walked m' ∧ c.inExpression = true) (Machine.subscripts m) :=
  Walks.bind (l := 0) (Walks.arguments (returns_bodyAt m.callsLeft) _)
    (fun vs => Walks.ofExcept (failsInExpression_indices vs)) m hm
    (Program.width_arguments_le hindex)

end Machine.Fit

end LineBasic
