import LineBasic.Proofs.Expr.Append
import LineBasic.Proofs.Machine.Walk
import LineBasic.Proofs.Program.Transfer

/-!
# An expression in other words

Where an expression stands plays no part in its value. On two machines that agree in all that it
looks at, and whose functions have bodies that are read alike, it has the same value or fails for
the same cause, the same random numbers are drawn and the same arrays come into being. The two
machines may be on different lines, and so may the bodies of their functions.

The induction is the one that keeps evaluation on its line, over expressions, and around it over the
number of calls that may nest. That both evaluations move past their tokens is known from there, and
it is needed here: what stands behind the body of a function is looked at after its value is there.

## Main definitions

* `ReadsAlike` — tokens that start with the same expression, in front of the same token
* `Machine.Kin` — two machines on which expressions have the same value
* `Tallies` — evaluations with the same end
* `Mirrors` — evaluations that have the same end on any two such machines

## Main results

* `Mirrors.expr`, `Mirrors.arguments`, `Mirrors.bound` — evaluation, given that calls end alike
* `replies_bodyAt` — calls end alike
* `Machine.Kin.subscripts` — the same subscripts at the location
-/

namespace LineBasic

open LineBasic.Expr Machine

/-- The tokens start with the same expression, and behind it the next token is the same. -/
def ReadsAlike (ts us : List Token) : Prop :=
  (parseAt 0 us).1 = (parseAt 0 ts).1 ∧ (parseAt 0 us).2.head? = (parseAt 0 ts).2.head?

theorem ReadsAlike.refl (ts : List Token) : ReadsAlike ts ts :=
  ⟨rfl, rfl⟩

namespace Machine

/-- What evaluation changes is the same on both machines: the arrays and the random numbers. -/
structure Even (s t : Machine) : Prop where
  arrays : t.arrays = s.arrays
  random : t.random = s.random
  lastRandom : t.lastRandom = s.lastRandom

/-- Both machines have functions `F` and `G` under the same names and with the same parameters,
whose bodies are read alike. They agree in the variables, the arrays and the random numbers, and `d`
calls may nest on them. -/
structure Kin (F G : Std.ExtTreeMap Name Function) (d : Nat) (s t : Machine) : Prop
    extends s.Even t where
  left : s.Fit F d
  right : t.Fit G d
  maxElements : t.maxElements = s.maxElements
  scalars : t.scalars = s.scalars
  params : ∀ name, t.program.param? name = s.program.param? name
  undefined : ∀ name : Name, F[name]? = none → G[name]? = none
  bodies : ∀ (name : Name) (f : Function), F[name]? = some f → ∃ g, G[name]? = some g ∧
    g.params = f.params ∧ ∀ ts us, s.program.tokensOf? f.body.line = some ts →
      t.program.tokensOf? g.body.line = some us →
      ReadsAlike (ts.drop f.body.index) (us.drop g.body.index)

end Machine

/-- Two evaluations end alike: with the same value or for the same cause, with the same arrays and
the same random numbers. -/
abbrev Tallies {α : Type} :
    EStateM.Result Cause Machine α → EStateM.Result Cause Machine α → Prop :=
  Together (fun _ => Even) Even

/-- Two evaluations that move past `k` tokens and end alike on machines that are kin. -/
structure Mirrors {α : Type} (F G : Std.ExtTreeMap Name Function) (d k : Nat) (x y : Eval α) :
    Prop where
  left : Walks F d k x
  right : Walks G d k y
  alike : ∀ s t : Machine, s.Kin F G d t →
    s.program.location.index + k ≤ s.program.current.length →
    t.program.location.index + k ≤ t.program.current.length → Tallies (x s) (y t)

variable {α β : Type} {F G : Std.ExtTreeMap Name Function} {d k l : Nat} {s s' t t' : Machine}

namespace Machine.Kin

theorem lookup (h : s.Kin F G d t) (name : Name) : t.lookup name = s.lookup name := by
  rw [Machine.lookup, Machine.lookup, h.params, global, global, h.scalars]

/-- What evaluation changes, it changes on both machines alike. -/
theorem walked (h : s.Kin F G d t) (hs : s.Walked s') (ht : t.Walked t')
    (heven : s'.Even t') : s'.Kin F G d t' where
  toEven := heven
  left := hs.fit h.left
  right := ht.fit h.right
  maxElements := by rw [hs.same, ht.same, h.maxElements]
  scalars := by rw [hs.same, ht.same, h.scalars]
  params name := by
    rw [hs.program, ht.program]
    exact h.params name
  undefined := h.undefined
  bodies name f hf := by
    rw [hs.program, ht.program]
    exact h.bodies name f hf

/-- Inside a function both machines see the same arguments. -/
theorem inside (h : s.Kin F G (d + 1) t) (params : Bindings) {body body' : Location}
    {tokens tokens' : List Token} (htokens : s.program.tokensOf? body.line = some tokens)
    (htokens' : t.program.tokensOf? body'.line = some tokens') :
    (s.inside params body tokens).Kin F G d (t.inside params body' tokens') where
  toEven := ⟨h.arrays, h.random, h.lastRandom⟩
  left := ⟨h.left.functions, htokens, h.left.bodies, callsLeft_inside h.left.callsLeft _ _ _⟩
  right := ⟨h.right.functions, htokens', h.right.bodies, callsLeft_inside h.right.callsLeft _ _ _⟩
  maxElements := h.maxElements
  scalars := h.scalars
  params name := by
    have hcons : ∀ (m : Machine) (body : Location) (tokens : List Token),
        (m.inside params body tokens).program.param? name =
          (params[name]?).or (m.program.param? name) := by
      intro m body tokens
      simp only [Program.param?, Machine.inside, List.findSome?_cons, Frame.params]
      cases params[name]? <;> rfl
    rw [hcons, hcons, h.params]
  undefined := h.undefined
  bodies := h.bodies

end Machine.Kin

namespace Mirrors

/-- One part after another that ends alike where the first part ends. -/
theorem andThen {x x' : Eval α} {f f' : α → Eval β} (hx : Mirrors F G d k x x')
    (h : s.Kin F G d t) (hs : s.program.location.index + (k + l) ≤ s.program.current.length)
    (ht : t.program.location.index + (k + l) ≤ t.program.current.length)
    (hf : ∀ a s' t', s'.Kin F G d t' →
      s'.program.location.index + l ≤ s'.program.current.length →
      t'.program.location.index + l ≤ t'.program.current.length → Tallies (f a s') (f' a t')) :
    Tallies ((x >>= f) s) ((x' >>= f') t) := by
  have hleft := hx.left s h.left (by omega)
  have hright := hx.right t h.right (by omega)
  have hend := (hx.alike s t h (by omega) (by omega)).and hleft hright
  refine (hend.mono (fun _ _ _ h' => h') fun _ _ h' => h'.1).bind ?_
  rintro a s' t' ⟨heven, ⟨hwalked, hindex⟩, hwalked', hindex'⟩
  refine hf a s' t' (h.walked hwalked hwalked' heven) ?_ ?_
  · rw [hwalked.current]
    omega
  · rw [hwalked'.current]
    omega

theorem bind {x x' : Eval α} {f f' : α → Eval β} (hx : Mirrors F G d k x x')
    (hf : ∀ a, Mirrors F G d l (f a) (f' a)) : Mirrors F G d (k + l) (x >>= f) (x' >>= f') where
  left := hx.left.bind fun a => (hf a).left
  right := hx.right.bind fun a => (hf a).right
  alike _ _ h hs ht := hx.andThen h hs ht fun a s' t' => (hf a).alike s' t'

theorem pure (a : α) : Mirrors F G d 0 (Pure.pure a) (Pure.pure a) where
  left := .pure a
  right := .pure a
  alike _ _ h _ _ := ⟨rfl, h.toEven⟩

theorem throw {c : Cause} (hc : c.inExpression = true) :
    Mirrors F G d k (MonadExcept.throw c : Eval α) (MonadExcept.throw c) where
  left := .throw hc
  right := .throw hc
  alike _ _ h _ _ := ⟨rfl, h.toEven⟩

theorem skip (n : Nat) : Mirrors F G d n (skip n) (Machine.skip n) where
  left := .skip n
  right := .skip n
  alike _ _ h _ _ := ⟨rfl, h.arrays, h.random, h.lastRandom⟩

theorem ofExcept {r : Except Cause α} (hr : FailsInExpression r) :
    Mirrors F G d 0 (Machine.ofExcept r) (Machine.ofExcept r) where
  left := .ofExcept hr
  right := .ofExcept hr
  alike _ _ h _ _ := by
    cases r with
    | ok a => exact ⟨rfl, h.toEven⟩
    | error c => exact ⟨rfl, h.toEven⟩

/-- What is the same on both machines can be looked at. -/
theorem gets {f : Machine → α} (hf : ∀ s t : Machine, s.Kin F G d t → f t = f s) :
    Mirrors F G d 0 (do return f (← get)) (do return f (← get)) where
  left := .get_bind fun _ _ => .pure _
  right := .get_bind fun _ _ => .pure _
  alike s t h _ _ := ⟨hf s t h, h.toEven⟩

theorem takeClosing (close : Closing) :
    Mirrors F G d close.width (takeClosing close) (Machine.takeClosing close) := by
  cases close with
  | closed => exact skip 1
  | ended => exact throw rfl
  | blocked => exact throw rfl

theorem checkFits (name : Name) (v : Value) :
    Mirrors F G d 0 (checkFits name v) (Machine.checkFits name v) := by
  rw [Machine.checkFits]
  split
  · exact pure ()
  · exact throw rfl

/-- The same random number is drawn. -/
theorem draw {f : Machine → Machine}
    (hf : ∀ m : Machine, f m =
      { m with lastRandom := m.random.draw.1, random := m.random.draw.2 }) :
    Mirrors F G d 0 (modify f) (modify f) where
  left := .modify fun m => ⟨_, _, hf m⟩
  right := .modify fun m => ⟨_, _, hf m⟩
  alike s t h _ _ := by
    rw [modify_apply, modify_apply, hf, hf]
    exact ⟨rfl, h.arrays, congrArg (·.draw.2) h.random, congrArg (·.draw.1) h.random⟩

theorem applyBuiltin (b : Builtin) (args : List Value) :
    Mirrors F G d 0 (applyBuiltin b args) (Machine.applyBuiltin b args) := by
  have hlast : Mirrors F G d 0 (do return .num (← get).lastRandom : Eval Value)
      (do return .num (← get).lastRandom) :=
    gets fun _ _ h => congrArg Value.num h.lastRandom
  fun_cases Machine.applyBuiltin b args
  · refine bind (l := 0) (ofExcept (Builtin.failsInExpression_draws _)) fun draws => ?_
    cases draws with
    | false => exact hlast
    | true => exact bind (l := 0) (draw fun _ => rfl) fun _ => hlast
  · exact ofExcept (b.failsInExpression args)

/-- An array that is made at its first use is made on both machines. -/
theorem arrayFor (name : Name) (axes : Nat) :
    Mirrors F G d 0 (arrayFor name axes) (Machine.arrayFor name axes) where
  left := .arrayFor name axes
  right := .arrayFor name axes
  alike s t h _ _ := by
    rw [Machine.arrayFor, get_bind_apply, get_bind_apply, h.arrays, h.maxElements]
    cases s.arrays[name]? with
    | some g => exact ⟨rfl, h.toEven⟩
    | none =>
      simp only [bind_apply, Machine.ofExcept]
      cases Grid.make name.isString (List.replicate axes implicitSize) s.maxElements with
      | error c => exact ⟨rfl, h.toEven⟩
      | ok g => exact ⟨rfl, rfl, h.random, h.lastRandom⟩

end Mirrors

/-! ### Expressions -/

/-- Calls of functions come back to where they were made, and calls of functions with the same name
end alike. -/
structure Replies (F G : Std.ExtTreeMap Name Function) (d : Nat) (body : Name → Eval Value) :
    Prop where
  left : Returns F d body
  right : Returns G d body
  alike : ∀ (name : Name) (f g : Function) (params : Bindings), F[name]? = some f →
    G[name]? = some g → ∀ s t : Machine, s.Kin F G d t →
    s.program.location.index ≤ s.program.current.length →
    t.program.location.index ≤ t.program.current.length →
    Tallies ((do onProgram (Program.pushFunction params f.body); body name) s)
      ((do onProgram (Program.pushFunction params g.body); body name) t)

namespace Mirrors

variable {body : Name → Eval Value}

mutual

/-- An expression ends alike if calls do. -/
theorem expr (hbody : Replies F G d body) (e : Expr) :
    Mirrors F G d e.width (evalWith body e) (evalWith body e) := by
  match e with
  | .number x => exact (skip 1).bind fun _ => pure _
  | .string s => exact (skip 1).bind fun _ => pure _
  | .scalar name => exact (skip 1).bind fun _ => gets fun _ _ h => h.lookup name
  | .paren e close =>
    rw [evalWith, Expr.width]
    exact (skip 1).bind fun _ => (expr hbody e).bind fun v =>
      bind (l := 0) (takeClosing close) fun _ => pure v
  | .unary op e =>
    rw [evalWith, Expr.width]
    exact (skip 1).bind fun _ => bind (l := 0) (expr hbody e) fun v =>
      ofExcept (op.failsInExpression v)
  | .binary op left right =>
    rw [evalWith, Expr.width]
    exact (expr hbody left).bind fun v => (skip 1).bind fun _ =>
      bind (l := 0) (expr hbody right) fun w => ofExcept (op.failsInExpression v w)
  | .call name args =>
    refine ⟨.expr hbody.left _, .expr hbody.right _, fun s t h hs ht => ?_⟩
    rw [Expr.width] at hs ht
    rw [evalWith]
    have hskip := Mirrors.skip (F := F) (G := G) (d := d) 2
    refine hskip.andThen h hs ht fun _ s₁ t₁ h₁ hs₁ ht₁ => ?_
    cases hfind : Builtin.find? name with
    | some b =>
      have hcall := bind (l := 0) (arguments hbody args) fun vs => applyBuiltin b vs
      exact hcall.alike s₁ t₁ h₁ hs₁ ht₁
    | none =>
      dsimp only
      rw [get_bind_apply, get_bind_apply, h₁.left.functions, h₁.right.functions]
      cases hf : F[name]? with
      | none =>
        rw [h₁.undefined name hf]
        exact (bind (l := 0) (arguments hbody args) fun vs =>
          bind (l := 0) (ofExcept (failsInExpression_indices vs)) fun index =>
          bind (l := 0) (arrayFor name _) fun g => ofExcept (g.failsInExpression_get index)).alike
            s₁ t₁ h₁ hs₁ ht₁
      | some f =>
        -- both sides bind the same parameters, and the bodies end alike
        obtain ⟨g, hg, hparams, -⟩ := h₁.bodies name f hf
        obtain ⟨hfirst, hothers⟩ := List.cons.inj hparams
        rw [hg]
        have hbound := bound hbody args f.firstParam f.otherParams ∅
        dsimp only
        rw [hfirst, hothers]
        exact hbound.andThen (l := 0) h₁ hs₁ ht₁ fun params s₂ t₂ h₂ hs₂ ht₂ =>
          hbody.alike name f g params hf hg s₂ t₂ h₂ hs₂ ht₂
  | .missing => exact throw rfl
  | .misplaced t => exact bind (l := 0) (skip 1) fun _ => throw rfl

/-- So does an argument list. -/
theorem arguments (hbody : Replies F G d body) (args : Arguments) :
    Mirrors F G d args.width (evalArguments body args) (evalArguments body args) := by
  match args with
  | .last e close =>
    rw [evalArguments, Arguments.width]
    exact (expr hbody e).bind fun v =>
      bind (l := 0) (takeClosing close) fun _ => pure _
  | .more e rest =>
    rw [evalArguments, Arguments.width]
    exact (expr hbody e).bind fun v => (skip 1).bind fun _ =>
      bind (l := 0) (arguments hbody rest) fun vs => pure _

/-- So does an argument list that is bound to parameters, which may end early. -/
theorem bound (hbody : Replies F G d body) (args : Arguments) (p : Name)
    (ps : List Name) (params : Bindings) :
    Mirrors F G d args.width (bindArguments body p ps args params)
      (bindArguments body p ps args params) := by
  match args with
  | .last e close =>
    rw [bindArguments, Arguments.width]
    refine (expr hbody e).bind fun v => ?_
    rw [← Nat.zero_add close.width]
    refine (checkFits p v).bind fun _ => ?_
    split
    · exact bind (l := 0) (takeClosing close) fun _ => pure _
    · exact throw rfl
    · exact throw rfl
  | .more e rest =>
    rw [bindArguments, Arguments.width]
    refine (expr hbody e).bind fun v => ?_
    rw [← Nat.zero_add (1 + rest.width)]
    refine (checkFits p v).bind fun _ => ?_
    split
    · exact throw rfl
    · exact (skip 1).bind fun _ => bound hbody rest _ _ _

end

end Mirrors

/-! ### Calls -/

/-- A function that keeps to its own line ends as its body does, and the location is back at the
call. -/
theorem inFunction_inside {m : Machine} {x : Eval α} {params : Bindings} {body : Location}
    {tokens : List Token} (hsynced : m.program.Synced)
    (hindex : m.program.location.index ≤ m.program.current.length)
    (hx : Concludes (fun _ m' => (m.inside params body tokens).Walked m')
      (fun _ m' => (m.inside params body tokens).Walked m') (x (m.inside params body tokens))) :
    inFunction x (m.inside params body tokens) =
      match x (m.inside params body tokens) with
      | .ok a m' => .ok a { m' with program := m.program }
      | .error c m' => .error c { m' with program := m.program } := by
  rw [inFunction]
  cases hend : x (m.inside params body tokens) with
  | ok a m' =>
    rw [hend] at hx
    simp only [popFunction_inside hsynced hindex hx.program]
  | error c m' =>
    rw [hend] at hx
    simp only [popFunction_inside hsynced hindex hx.program]

/-- Two functions that end alike return alike. -/
theorem tallies_inFunction {x : Eval α} {params : Bindings} {body body' : Location}
    {tokens tokens' : List Token} (h : s.Kin F G (d + 1) t)
    (hs : s.program.location.index ≤ s.program.current.length)
    (ht : t.program.location.index ≤ t.program.current.length)
    (hxs : Concludes (fun _ m' => (s.inside params body tokens).Walked m')
      (fun _ m' => (s.inside params body tokens).Walked m') (x (s.inside params body tokens)))
    (hxt : Concludes (fun _ m' => (t.inside params body' tokens').Walked m')
      (fun _ m' => (t.inside params body' tokens').Walked m') (x (t.inside params body' tokens')))
    (hx : Tallies (x (s.inside params body tokens)) (x (t.inside params body' tokens'))) :
    Tallies (inFunction x (s.inside params body tokens))
      (inFunction x (t.inside params body' tokens')) := by
  rw [inFunction_inside h.left.synced hs hxs, inFunction_inside h.right.synced ht hxt]
  rcases hx.cases with ⟨a, s', t', hends, hendt, heven⟩ | ⟨c, s', t', hends, hendt, heven⟩
  · rw [hends, hendt]
    exact ⟨rfl, heven.arrays, heven.random, heven.lastRandom⟩
  · rw [hends, hendt]
    exact ⟨rfl, heven.arrays, heven.random, heven.lastRandom⟩

/-- Behind an expression the tokens are left that reading it leaves. -/
theorem Machine.Walked.rest_expr {m m' : Machine} (h : m.Walked m')
    (hindex : m'.program.location.index =
      m.program.location.index + (Expr.read m.program.rest).width) :
    m'.program.rest = (parseAt 0 m.program.rest).2 := by
  rw [Program.rest, h.current, hindex, ← List.drop_drop]
  exact (Expr.behind_readAt 0 m.program.rest).eq_drop.symm

/-- What is asked of the value of a function depends on the next token only. -/
theorem tallies_checkBody (h : s.Kin F G d t)
    (hpeek : t.program.peek? = s.program.peek?) (name : Name) (v : Value) :
    Tallies (checkBody name v s) (checkBody name v t) := by
  have hend : t.program.atStatementEnd = s.program.atStatementEnd := by
    rw [Program.atStatementEnd, Program.atStatementEnd, hpeek]
  have hkind : t.program.peekKind? = s.program.peekKind? := congrArg (Option.map Token.kind) hpeek
  rw [checkBody, get_bind_apply, get_bind_apply]
  dsimp only
  rw [hend, hkind]
  split
  · exact ⟨rfl, h.toEven⟩
  · rw [checkFits]
    split
    · exact ⟨rfl, h.toEven⟩
    · exact ⟨rfl, h.toEven⟩

/-- Bodies that are read alike end alike. -/
theorem tallies_bodyExpression (hd : Replies F G d (bodyAt d)) (name : Name) (h : s.Kin F G d t)
    (hs : s.program.location.index ≤ s.program.current.length)
    (ht : t.program.location.index ≤ t.program.current.length)
    (halike : ReadsAlike s.program.rest t.program.rest) :
    Tallies (bodyExpression d name s) (bodyExpression d name t) := by
  obtain ⟨hphrase, hnext⟩ := halike
  have hread : Expr.read t.program.rest = Expr.read s.program.rest := hphrase
  have hfits := Program.width_read_le hs
  have hfits' := Program.width_read_le ht
  rw [hread] at hfits'
  have hexpr := Mirrors.expr hd (Expr.read s.program.rest)
  have hleft := hexpr.left s h.left hfits
  have hright := hexpr.right t h.right hfits'
  have hend := (hexpr.alike s t h hfits hfits').and hleft hright
  rw [bodyExpression, get_bind_apply, get_bind_apply, hread]
  refine (hend.mono (fun _ _ _ h' => h') fun _ _ h' => h'.1).bind ?_
  rintro v s' t' ⟨heven, ⟨hwalked, hindex⟩, hwalked', hindex'⟩
  refine tallies_checkBody (h.walked hwalked hwalked' heven) ?_ name v
  rw [Program.peek?_eq_head?, Program.peek?_eq_head?, hwalked.rest_expr hindex,
    hwalked'.rest_expr (hread ▸ hindex'), hnext]

/-- Calls end alike, however deeply they nest. -/
theorem replies_bodyAt (d : Nat) : Replies F G d (bodyAt d) := by
  refine ⟨returns_bodyAt d, returns_bodyAt d, ?_⟩
  induction d with
  | zero =>
    intro name f g params _ _ s t h _ _
    rw [bind_apply, bind_apply, pushFunction_overflow h.left.callsLeft,
      pushFunction_overflow h.right.callsLeft]
    exact ⟨rfl, h.toEven⟩
  | succ d ih =>
    intro name f g params hf hg s t h hs ht
    obtain ⟨ts, hts, hindex⟩ := h.left.bodies name f hf
    obtain ⟨us, hus, hindex'⟩ := h.right.bodies name g hg
    obtain ⟨g', hg', -, hbodies⟩ := h.bodies name f hf
    obtain rfl : g' = g := Option.some.inj (hg'.symm.trans hg)
    have hinside := h.inside params hts hus
    have hd : Replies F G d (bodyAt d) := ⟨returns_bodyAt d, returns_bodyAt d, ih⟩
    rw [bind_apply, bind_apply, pushFunction_inside h.left.callsLeft params hts hindex,
      pushFunction_inside h.right.callsLeft params hus hindex']
    have hwalks := concludes_bodyExpression (returns_bodyAt d) name hinside.left hindex
    have hwalks' := concludes_bodyExpression (returns_bodyAt d) name hinside.right hindex'
    exact tallies_inFunction h hs ht (hwalks.mono (fun _ _ h => h) fun _ _ h => h.1)
      (hwalks'.mono (fun _ _ h => h) fun _ _ h => h.1)
      (tallies_bodyExpression hd name hinside hindex hindex' (hbodies ts us hts hus))

/-! ### Subscripts at the location -/

/-- The same subscripts at the location are the same numbers. -/
theorem Machine.Kin.subscripts (h : s.Kin s.functions t.functions s.callsLeft t)
    (hs : s.program.location.index ≤ s.program.current.length)
    (ht : t.program.location.index ≤ t.program.current.length)
    (hread : (Arguments.read t.program.rest).phrase = (Arguments.read s.program.rest).phrase) :
    Tallies (Machine.subscripts s) (Machine.subscripts t) := by
  have hfits := Program.width_arguments_le hs
  have hfits' := Program.width_arguments_le ht
  rw [hread] at hfits'
  rw [Machine.subscripts, get_bind_apply, get_bind_apply, hread, h.right.callsLeft]
  exact (Mirrors.bind (l := 0) (.arguments (replies_bodyAt s.callsLeft) _) fun vs =>
    .ofExcept (failsInExpression_indices vs)).alike s t h hfits hfits'

end LineBasic
