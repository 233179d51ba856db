import LineBasic.Proofs.Machine.Ends

/-!
# Every step ends

The parts of a statement move along the line, so a loop over the line has fewer tokens left after
each round, and an `IF` has fewer tokens left in front of the statement of its branch. Together with
the evaluation of expressions, which ends, every statement ends, and with it every step. Each part
is shown to end as the part of the machine that has a bound, which is therefore never reached.

## Main definitions

* `Unbounded.EndsAs` — an action without bounds ends as the one of the machine

## Main results

* `Unbounded.statement_eq` — every statement ends
* `Unbounded.step_eq` — so does every step
-/

namespace LineBasic.Unbounded

open Machine

variable {ε α β : Type} {o : Options} {m m₁ : Machine} {B : ε → Prop}

/-- While a statement is executed, `x'` ends as `x` does. -/
def EndsAs (x' : Unbounded ε α) (x : EStateM ε Machine α) : Prop :=
  ∀ (o : Options) (m : Machine), m.Active o → x' m = ofEnding x m

namespace EndsAs

/-- What has no loops ends. -/
theorem lift (x : EStateM ε Machine α) : EndsAs (liftM x : Unbounded ε α) x :=
  fun _ _ _ => rfl

theorem pure (a : α) : EndsAs (Pure.pure a : Unbounded ε α) (Pure.pure a) :=
  fun _ _ _ => rfl

/-- One part of a statement after another. -/
theorem bind {x' : Unbounded ε α} {x : EStateM ε Machine α} {f' : α → Unbounded ε β}
    {f : α → EStateM ε Machine β} (hx : EndsAs x' x) (hstays : Stays B x)
    (hf : ∀ a, EndsAs (f' a) (f a)) : EndsAs (x' >>= f') (x >>= f) :=
  fun o m hm => bind_eq (hx o m hm) fun a m₁ hend =>
    hf a o m₁ ((hstays.within hm hend).active hm)

theorem get_bind {f' : Machine → Unbounded ε α} {f : Machine → EStateM ε Machine α}
    (hf : ∀ m, EndsAs (f' m) (f m)) : EndsAs (get >>= f') (get >>= f) :=
  fun o m hm => hf m o m hm

theorem ite {c : Prop} [Decidable c] {x' y' : Unbounded ε α} {x y : EStateM ε Machine α}
    (hx : EndsAs x' x) (hy : EndsAs y' y) :
    EndsAs (if c then x' else y') (if c then x else y) := by
  split
  · exact hx
  · exact hy

/-- Evaluation that has no loops ends as part of execution. -/
theorem lift_eval (x : Eval α) : EndsAs (liftM x : Unbounded Stop α) (ofEval x) :=
  fun _ _ _ => rfl

/-- Evaluation as part of execution. -/
theorem toExec {x' : Unbounded Cause α} {x : Eval α} (hx : EndsAs x' x) :
    EndsAs (Unbounded.toExec x') (ofEval x) := by
  intro o m hm
  rw [Unbounded.toExec, hx o m hm, ofEnding, ofEnding, ofEval]
  cases x m with
  | ok a m₁ => rfl
  | error c m₁ => rfl

end EndsAs

theorem ofEnding_get_bind (f : Machine → EStateM ε Machine α) :
    ofEnding (get >>= f) m = ofEnding (f m) m := rfl

/-! ### Evaluation -/

theorem placed_of_active (hm : m.Active o) : m.Placed m.functions m.callsLeft :=
  ⟨hm.fit, hm.program.index⟩

theorem endsAs_expression : EndsAs expression Machine.expression :=
  fun _ _ hm => value_eq (placed_of_active hm) 0

theorem endsAs_numberExpression : EndsAs numberExpression Machine.numberExpression :=
  endsAs_expression.bind (.of_treads treads_expression) fun _ => .lift _

theorem endsAs_subscripts : EndsAs subscripts Machine.subscripts :=
  fun _ _ hm => bind_eq (arguments_eq (placed_of_active hm)) fun _ _ _ => rfl

theorem endsAs_target : EndsAs target Machine.target := by
  refine .bind (.lift _) (.of_treads treads_nextName) fun name => ?_
  refine .bind (.lift _) (.of_treads (treads_accept rfl)) fun found => ?_
  cases found with
  | true => exact endsAs_subscripts.bind (.of_treads treads_subscripts) fun _ => .pure _
  | false => exact .pure _

/-! ### Loops over a line -/

/-- What a loop does behind a round. -/
def Loop.next {σ : Type} (l : Loop ε σ α) : σ ⊕ α → Unbounded ε α
  | .inl s => l.run s
  | .inr a => pure a

/-- A loop does a round, and then what is due. -/
theorem Loop.run_eq {σ : Type} (l : Loop ε σ α) (s : σ) : l.run s = l.round s >>= l.next := by
  rw [run]
  refine congrArg (l.round s >>= ·) (funext fun r => ?_)
  cases r <;> rfl

theorem get_bind_bind_eq (f' : Machine → Unbounded ε α) (g' : α → Unbounded ε β) :
    ((get >>= f') >>= g') m = (f' m >>= g') m := rfl

/-- Skipping tokens one by one skips all that come before the first other one. -/
theorem skipWhile_eq (p : Token → Bool) (m : Machine) :
    skipWhile p m =
      ofEnding (modifyProgram fun q => q.skip (q.rest.takeWhile p).length) m := by
  have hskip : ∀ m : Machine,
      ofEnding (modifyProgram fun q => q.skip (q.rest.takeWhile p).length) m =
        some (.ok (), { m with program := m.program.skip (m.program.rest.takeWhile p).length }) :=
    fun _ => rfl
  generalize hrest : m.program.rest = ts
  induction ts generalizing m with
  | nil =>
    rw [skipWhile, Loop.run_eq, skipLoop, get_bind_bind_eq, Program.peek?_eq_head?, hskip, hrest]
    rfl
  | cons t ts ih =>
    rw [skipWhile, Loop.run_eq, skipLoop, get_bind_bind_eq, Program.peek?_eq_head?, hskip, hrest,
      List.head?_cons]
    dsimp only
    by_cases hp : p t = true
    · rw [if_pos hp]
      change skipWhile p m.past = _
      rw [ih m.past (rest_past hrest), hskip, rest_past hrest, List.takeWhile_cons_of_pos hp,
        List.length_cons, Nat.add_comm]
      rw [Machine.past, Program.skip, Program.skip, Program.skip, Nat.add_assoc]
    · rw [if_neg hp, List.takeWhile_cons_of_neg hp]
      rfl

/-- A token is taken only if there is one. -/
theorem rest_of_accept {k : Token.Kind} (h : accept k m = .ok true m₁) :
    m₁.program.rest.length < m.program.rest.length := by
  rw [accept_apply] at h
  split at h
  · next hkind =>
    obtain ⟨t, ht, -⟩ := Option.map_eq_some_iff.mp hkind
    cases h
    exact rest_past_lt ht
  · cases h

/-- Further right on a line, no more tokens are left. -/
theorem rest_le {p q : Program} (hcurrent : q.current = p.current)
    (hforward : p.location.index ≤ q.location.index) : q.rest.length ≤ p.rest.length := by
  rw [Program.length_rest, Program.length_rest, hcurrent]
  exact Nat.sub_le_sub_left hforward _

/-- The items of a list end if each of them does, and a further item is due only in the middle of
the statement. -/
theorem items_eq {n : Machine} {item' : Unbounded Stop Bool} {item : Exec Bool} (hn : n.Active o)
    (hends : EndsAs item' item)
    (hitem : ∀ m m₁, n.Within m → item m = .ok true m₁ → m.Within m₁) (hm : n.Within m) :
    items item' m = ofEnding (Machine.items item) m := by
  have heach : ∀ more m, n.Within m → m.program.rest.length ≤ more →
      items item' m = ofEnding (eachItem item more) m := by
    intro more
    induction more with
    | zero =>
      intro m hm hmore
      rw [items, Loop.run_eq, itemLoop, bind_assoc, eachItem]
      refine bind_eq (hends o m (hm.active hn)) fun again m₁ hend => ?_
      cases again with
      | false => rfl
      | true =>
        have hwithin := hitem m m₁ hm hend
        have hle := rest_le hwithin.current hwithin.forward
        have hcomma : accept (.mark .comma) m₁ = .ok false m₁ := by
          cases haccept : accept (.mark .comma) m₁ with
          | error e m₂ =>
            rw [accept_apply] at haccept
            split at haccept <;> cases haccept
          | ok comma m₂ =>
            cases comma with
            | true =>
              have hlt := rest_of_accept haccept
              omega
            | false =>
              rw [accept_apply] at haccept
              split at haccept <;> cases haccept
              rfl
        simp only [if_true]
        rw [bind_assoc]
        exact lift_bind_ok hcomma
    | succ more ih =>
      intro m hm hmore
      rw [items, Loop.run_eq, itemLoop, bind_assoc, eachItem]
      refine bind_eq (hends o m (hm.active hn)) fun again m₁ hend => ?_
      cases again with
      | false => rfl
      | true =>
        have hm₁ := hitem m m₁ hm hend
        simp only [if_true]
        rw [bind_assoc]
        refine bind_eq rfl fun comma m₂ hend₂ => ?_
        cases comma with
        | false => rfl
        | true =>
          have hactive := hm₁.active (hm.active hn)
          have hm₂ := (Stays.tread (treads_accept rfl)).within hactive hend₂
          refine ih m₂ ((hm.trans hm₁).trans hm₂) ?_
          have hle := rest_le hm₁.current hm₁.forward
          have hlt := rest_of_accept hend₂
          omega
  exact heach _ m hm (Nat.le_refl _)

/-- The items of a list end if each of them does and stays in the statement. -/
theorem endsAs_items {item' : Unbounded Stop Bool} {item : Exec Bool} (hends : EndsAs item' item)
    (hstays : Stays Stop.IsFault item) : EndsAs (items item') (Machine.items item) :=
  fun _ _ hm => items_eq hm hends (fun _ _ hwithin hend => hstays.within (hwithin.active hm) hend)
    (.refl hm.program.index)

theorem eq_ok_of_ofEval {x : Eval α} {a : α} (h : ofEval x m = .ok a m₁) : x m = .ok a m₁ := by
  rw [ofEval] at h
  cases hend : x m with
  | ok b m₂ =>
    rw [hend] at h
    cases h
    rfl
  | error c m₂ =>
    rw [hend] at h
    cases h

/-- Behind an expression that has a value, fewer tokens are left. -/
theorem rest_of_expression (hm : m.Active o) {v : Value}
    (h : Machine.expression m = .ok v m₁) :
    m₁.program.rest.length < m.program.rest.length := by
  rw [Machine.expression, get_bind_apply] at h
  exact ((placed_of_active hm).value h).2.2

/-- A `PRINT` has at most as many items as the line has tokens left. -/
theorem printLoop_eq {fuel : Nat} (hm : m.Active o) (hfuel : m.program.rest.length ≤ fuel)
    (out : Printout) : printLoop.run out m = ofEnding (Machine.printItems fuel out) m := by
  induction fuel generalizing m out with
  | zero =>
    have hend : m.program.atStatementEnd = true := by
      have hnil : m.program.rest = [] := List.eq_nil_of_length_eq_zero (Nat.le_zero.mp hfuel)
      rw [Program.atStatementEnd, Program.peek?_eq_head?, hnil]
      rfl
    rw [Loop.run_eq, printLoop, get_bind_bind_eq]
    dsimp only
    rw [if_pos hend]
    rfl
  | succ fuel ih =>
    have hskip : ∀ {t : Token}, m.program.peek? = some t →
        m.past.Active o ∧ m.past.program.rest.length ≤ fuel := by
      intro t ht
      have hlt := rest_past_lt ht
      exact ⟨hm.walked (.skip ht), by omega⟩
    rw [Loop.run_eq, Machine.printItems]
    change ((if m.program.atStatementEnd then _ else _) >>= printLoop.next) m =
      ofEnding (if m.program.atStatementEnd then _ else _) m
    split
    · rfl
    · generalize hpeek : m.program.peek? = peeked
      generalize (if out.afterSemicolon = true then out.text else out.text ++ [0x09]) = tabbed
      have hvalue : ((do
          let v ← expression
          return .inl ⟨out.text ++ v.text, true, false⟩ : Unbounded Stop (Printout ⊕ Printout)) >>=
            printLoop.next) m =
          ofEnding (do
            let v ← Machine.expression
            Machine.printItems fuel ⟨out.text ++ v.text, true, false⟩ : Exec Printout) m := by
        rw [bind_assoc]
        refine bind_eq (EndsAs.toExec endsAs_expression o m hm) fun v m₁ hend => ?_
        have hwithin := (Stays.tread treads_expression).within hm hend
        have hlt := rest_of_expression hm (eq_ok_of_ofEval hend)
        exact ih (hwithin.active hm) (by omega) _
      cases peeked with
      | none => exact hvalue
      | some t =>
        cases t with
        | mark k =>
          cases k with
          | comma =>
            obtain ⟨hpast, hrest⟩ := hskip hpeek
            exact ih hpast hrest _
          | semicolon =>
            obtain ⟨hpast, hrest⟩ := hskip hpeek
            exact ih hpast hrest _
          | _ => exact hvalue
        | _ => exact hvalue

/-- A parameter list has at most as many further names as the line has tokens left. -/
theorem nameLoop_eq {fuel : Nat} (hm : m.Active o) (hfuel : m.program.rest.length ≤ fuel)
    (names : List Name) :
    nameLoop.run names m =
      ofEnding (Machine.moreNames fuel >>= fun others => pure (names ++ others)) m := by
  induction fuel generalizing m names with
  | zero =>
    have hnil : m.program.rest = [] := List.eq_nil_of_length_eq_zero (Nat.le_zero.mp hfuel)
    have hkind : m.program.peekKind? ≠ some (.mark .comma) := by
      rw [Program.peekKind?, Program.peek?_eq_head?, hnil]
      exact (Option.some_ne_none _).symm
    rw [Loop.run_eq, nameLoop, bind_assoc,
      lift_bind_ok ((accept_apply _ m).trans (if_neg hkind)), Machine.moreNames, pure_bind,
      List.append_nil]
    rfl
  | succ fuel ih =>
    rw [Loop.run_eq, nameLoop, bind_assoc, Machine.moreNames, bind_assoc]
    refine bind_eq rfl fun comma m₁ hend => ?_
    cases comma with
    | false =>
      simp only [Bool.false_eq_true, if_false, pure_bind, List.append_nil]
      rfl
    | true =>
      simp only [if_true, bind_assoc, pure_bind]
      refine bind_eq rfl fun name m₂ hend₂ => ?_
      have hm₁ := ((Stays.tread (treads_accept rfl)).within hm hend).active hm
      have hm₂ := (Stays.tread treads_nextName).within hm₁ hend₂
      have hlt := rest_of_accept hend
      have hle := rest_le hm₂.current hm₂.forward
      have hmore := ih (hm₂.active hm₁) (by omega) (names ++ [name])
      simp only [List.append_assoc, List.singleton_append] at hmore
      exact hmore

theorem moreNames_eq (hm : m.Active o) :
    nameLoop.run [] m = ofEnding (Machine.moreNames m.program.rest.length) m :=
  (nameLoop_eq hm (Nat.le_refl _) []).trans (by simp only [List.nil_append, bind_pure])

/-! ### Statements -/

theorem endsAs_letStatement : EndsAs letStatement Machine.letStatement := by
  refine endsAs_target.toExec.bind (.tread treads_target) fun t => ?_
  refine .bind (.lift _) (.tread (treads_expect rfl)) fun _ => ?_
  exact endsAs_expression.toExec.bind (.tread treads_expression) fun v => .lift _

theorem endsAs_dimItem : EndsAs dimItem Machine.dimItem := by
  refine .bind (.lift _) (.tread treads_nextName) fun name => ?_
  refine .bind (.lift _) (.tread (treads_expect rfl)) fun _ => ?_
  refine endsAs_subscripts.toExec.bind (.tread treads_subscripts) fun bounds => ?_
  refine .get_bind fun m => ?_
  have hmake : EndsAs
      (do
        let g ← Machine.ofExcept (Grid.make name.isString (bounds.map (· + 1)) m.maxElements)
        modify fun m => { m with arrays := m.arrays.insert name g }
        return true : Unbounded Stop Bool)
      (do
        let g ← Machine.ofExcept (Grid.make name.isString (bounds.map (· + 1)) m.maxElements)
        modify fun m => { m with arrays := m.arrays.insert name g }
        return true) :=
    (EndsAs.lift_eval _).bind (.tread (.ofExcept _)) fun g => fun _ _ _ => rfl
  exact .ite (.bind (.lift _) (.fail _) fun _ => hmake) hmake

theorem endsAs_dimStatement : EndsAs dimStatement Machine.dimStatement := by
  refine .get_bind fun m => .ite (fun _ _ _ => rfl) ?_
  exact endsAs_items endsAs_dimItem stays_dimItem

theorem endsAs_printStatement : EndsAs printStatement Machine.printStatement :=
  fun _ _ hm => bind_eq (printLoop_eq hm (Nat.le_refl _) {}) fun _ _ _ => rfl

theorem endsAs_inputStatement : EndsAs inputStatement Machine.inputStatement := by
  refine .get_bind fun m =>
    .bind (.lift _) (.of_treads readRules_treads.promptText) fun prompt => ?_
  refine endsAs_target.toExec.bind (.tread treads_target) fun t => ?_
  refine .bind (.lift _) (.of_treads readRules_treads.expectStatementEnd) fun _ =>
    .get_bind fun m => ?_
  cases m.reply with
  | none => exact .lift _
  | some reply => exact fun _ _ _ => rfl

theorem endsAs_gotoStatement : EndsAs gotoStatement Machine.gotoStatement :=
  endsAs_numberExpression.toExec.bind (.tread treads_numberExpression) fun _ => .lift _

theorem endsAs_gosubStatement : EndsAs gosubStatement Machine.gosubStatement :=
  endsAs_numberExpression.toExec.bind (.tread treads_numberExpression) fun _ =>
    (EndsAs.lift_eval _).bind (.tread (.ofExcept _)) fun _ => fun _ _ _ => rfl

theorem endsAs_forStatement : EndsAs forStatement Machine.forStatement := by
  refine .bind (.lift _) (.tread treads_nextName) fun name => ?_
  have hrest : EndsAs
      (do
        expect (.mark .equal)
        let start ← numberExpression
        expect (.keyword .TO)
        let limit ← numberExpression
        let step ← if ← accept (.keyword .STEP) then Unbounded.toExec numberExpression else pure 1
        expectStatementEnd
        setVariable name (.num start)
        Program.startLoop name limit step : Unbounded Stop Unit)
      (do
        expect (.mark .equal)
        let start ← Machine.numberExpression
        expect (.keyword .TO)
        let limit ← Machine.numberExpression
        let step ←
          if ← accept (.keyword .STEP) then ofEval Machine.numberExpression else pure 1
        expectStatementEnd
        setVariable name (.num start)
        Program.startLoop name limit step) := by
    refine .bind (.lift _) (.tread (treads_expect rfl)) fun _ => ?_
    refine endsAs_numberExpression.toExec.bind (.tread treads_numberExpression) fun start => ?_
    refine .bind (.lift _) (.tread (treads_expect rfl)) fun _ => ?_
    refine endsAs_numberExpression.toExec.bind (.tread treads_numberExpression) fun limit => ?_
    have hstart : ∀ step, EndsAs
        (do
          expectStatementEnd
          setVariable name (.num start)
          Program.startLoop name limit step : Unbounded Stop Unit)
        (do
          expectStatementEnd
          setVariable name (.num start)
          Program.startLoop name limit step) := fun step =>
      .bind (.lift _) (.of_treads readRules_treads.expectStatementEnd) fun _ => fun _ _ _ => rfl
    refine .bind (.lift _) (.tread (treads_accept rfl)) fun found => ?_
    cases found with
    | true => exact endsAs_numberExpression.toExec.bind (.tread treads_numberExpression) hstart
    | false => exact hstart 1
  exact .ite (.bind (.lift _) (.fail _) fun _ => hrest) hrest

theorem endsAs_readItem : EndsAs readItem Machine.readItem := by
  refine endsAs_target.toExec.bind (.tread treads_target) fun t => ?_
  refine .bind (.lift _) stays_nextDatum.ofEval fun datum => ?_
  have hstore : ∀ v, EndsAs
      (do
        assign t v
        return true : Unbounded Stop Bool)
      (do
        assign t v
        return true) := fun v => .bind (.lift_eval _) (stays_assign t v).ofEval fun _ => .pure true
  obtain ⟨field, line⟩ := datum
  dsimp only
  generalize t.name.isString = string
  cases string with
  | true => exact hstore (.str field.text)
  | false =>
    cases field with
    | num x => exact hstore (.num x)
    | str text => exact .bind (.lift _) (.fail _) hstore

/-- A `NEXT` goes on with another variable only in its middle. -/
theorem nextStatement_eq {n : Machine} (hn : n.past.Active o) :
    nextStatement n.past = ofEnding Machine.nextStatement n.past := by
  rw [nextStatement, get_bind_eq, Machine.nextStatement]
  change _ = ofEnding (if n.past.program.atStatementEnd then _ else _) n.past
  split
  · cases n.past.program.loopName? with
    | some name => rfl
    | none => rfl
  · refine items_eq hn (.lift _) (fun m m₁ hm hend => ?_) (.refl hn.program.index)
    -- every machine in the middle of the statement is behind its keyword
    obtain ⟨s, rfl⟩ : ∃ s : Machine, s.past = m := by
      refine ⟨{ m with program.location.index := m.program.location.index - 1 }, ?_⟩
      have hpos : 0 < m.program.location.index :=
        Nat.lt_of_lt_of_le (Nat.succ_pos _) hm.forward
      rw [past, Program.skip]
      dsimp only
      rw [Nat.sub_add_cancel hpos]
    have hs := hm.active hn
    exact within_of_nextItem hs (.refl hs.program.index) hend

theorem endsAs_defStatement : EndsAs defStatement Machine.defStatement := by
  refine .get_bind fun m => ?_
  have hrest : EndsAs
      (do
        let name ← nextName
        expect (.mark .lparen)
        let first ← nextName
        let others ← nameLoop.run []
        expect (.mark .rparen)
        expect (.mark .equal)
        let p := (← get).program
        if p.atStatementEnd then fail .endOfInput
        modify fun m => { m with functions := m.functions.insert name ⟨first, others, p.location⟩ }
        skipWhile (!·.endsStatement) : Unbounded Stop Unit)
      (do
        let name ← nextName
        expect (.mark .lparen)
        let first ← nextName
        let others ← Machine.moreNames (← get).program.rest.length
        expect (.mark .rparen)
        expect (.mark .equal)
        let p := (← get).program
        if p.atStatementEnd then fail .endOfInput
        modify fun m => { m with functions := m.functions.insert name ⟨first, others, p.location⟩ }
        modifyProgram Program.skipStatement) := by
    refine .bind (.lift _) (.tread treads_nextName) fun name => ?_
    refine .bind (.lift _) (.tread (treads_expect rfl)) fun _ => ?_
    refine .bind (.lift _) (.tread treads_nextName) fun first => fun o m hm => ?_
    refine bind_eq (moreNames_eq hm) fun others m₁ _ => ?_
    refine bind_eq rfl fun _ m₂ _ => bind_eq rfl fun _ m₃ _ => ?_
    rw [get_bind_eq]
    change _ = ofEnding (if m₃.program.atStatementEnd = true then _ else _) m₃
    dsimp only
    split
    · rfl
    · exact skipWhile_eq _ _
  exact .ite (.bind (.lift _) (.fail _) fun _ => hrest) hrest

theorem skipBranch_eq (m : Machine) : skipBranch m = ofEnding Machine.skipBranch m := by
  rw [skipBranch, bind_ok_eq (skipWhile_eq _ m) rfl, get_bind_eq, Machine.skipBranch,
    ofEnding_get_bind]
  dsimp only
  generalize hskipped : m.program.skip (m.program.rest.takeWhile (!endsBranch ·)).length = skipped
  cases skipped.peek? with
  | none => rfl
  | some t =>
    cases t with
    | keyword k => cases k <;> rfl
    | _ => rfl

theorem endsAs_chooseBranch : EndsAs chooseBranch Machine.chooseBranch := by
  refine endsAs_expression.toExec.bind (.tread treads_expression) fun condition => ?_
  have hchoice : EndsAs (if condition.truth then pure true else skipBranch)
      (if condition.truth then pure true else Machine.skipBranch) :=
    .ite (.pure true) fun _ m _ => skipBranch_eq m
  intro o m hm
  refine bind_eq rfl fun found m₁ hend => ?_
  have hm₁ := hm.walked (((wanders_accept _).ofEval o m hm).of_ok hend)
  cases found with
  | true => exact hchoice o m₁ hm₁
  | false =>
    simp only [Bool.not_false, if_true]
    rw [get_bind_eq, ofEnding_get_bind]
    split
    · split
      · rfl
      · rfl
    · exact hchoice o m₁ hm₁

/-- Behind the keyword of a statement. -/
theorem modify_bind_eq (f' : Unit → Unbounded Stop α) :
    ((liftM (modifyProgram (·.skip 1)) : Unbounded Stop Unit) >>= f') m = f' () m.past := rfl

theorem ofEnding_modify_bind (f : Unit → Exec α) :
    ofEnding (modifyProgram (·.skip 1) >>= f) m = ofEnding (f ()) m.past := rfl

/-- The statement of a branch ends as that of the machine, and so does what follows it. -/
theorem bind_leaveBranch_eq {x' : Unbounded Stop Unit} {x : Exec Unit}
    (hx : x' m = ofEnding x m) :
    (x' m >>= fun p => ofEnding (leaveBranch p.1) p.2) = ofEnding (aloneOnLine x) m := by
  rw [hx, ofEnding, ofEnding, aloneOnLine]
  cases x m with
  | ok _ m₁ => rfl
  | error stop m₁ =>
    cases stop with
    | fault cause => rfl
    | signal s => cases s <;> rfl

/-- An `IF` ends if the statement of its branch does. -/
theorem ifStatement_eq {x : Exec Unit} (hm : m.Active o)
    (hx : ∀ n, m.Walked n → Part.run .statement n = ofEnding x n) :
    (do
      let taken ← chooseBranch
      if taken then Part.run .branch : Unbounded Stop Unit) m = ofEnding (ifStatement x) m := by
  rw [Machine.ifStatement_eq]
  refine bind_eq (endsAs_chooseBranch o m hm) fun taken n hchoice => ?_
  cases taken with
  | false => rfl
  | true =>
    simp only [if_true]
    rw [Part.run, get_bind_eq, branch, ofEnding_get_bind]
    have hwalked : m.Walked n := ((concludes_chooseBranch hm).of_ok hchoice).1
    have halone := bind_leaveBranch_eq (hx n hwalked)
    cases n.program.peek? with
    | none => exact halone
    | some t =>
      cases t with
      | number x => rfl
      | _ => exact halone

/-- Every statement ends: the statement of a branch has fewer tokens left in front of it. -/
theorem statement_eq {fuel : Nat} (hm : m.Active o) (hfuel : m.program.rest.length ≤ fuel) :
    Part.run .statement m = ofEnding (Machine.statement fuel) m := by
  induction fuel generalizing m with
  | zero =>
    have hnil : m.program.rest = [] := List.eq_nil_of_length_eq_zero (Nat.le_zero.mp hfuel)
    rw [Part.run, get_bind_eq, Program.peek?_eq_head?, hnil]
    rfl
  | succ fuel ih =>
    rw [Part.run, get_bind_eq, Machine.statement, ofEnding_get_bind]
    cases hpeek : m.program.peek? with
    | none => rfl
    | some t =>
      have hpast : m.past.Active o := hm.walked (.skip hpeek)
      have hlt := rest_past_lt hpeek
      have hrest : m.past.program.rest.length ≤ fuel := by omega
      cases t with
      | symbol name => exact endsAs_letStatement o m hm
      | number x => rfl
      | string s => rfl
      | remark s => rfl
      | data values => rfl
      | mark k =>
        dsimp only
        rw [modify_bind_eq, ofEnding_modify_bind]
        cases k with
        | question => exact endsAs_printStatement o m.past hpast
        | _ => rfl
      | keyword k =>
        dsimp only
        rw [modify_bind_eq, ofEnding_modify_bind]
        cases k with
        | LET => exact endsAs_letStatement o m.past hpast
        | DIM => exact endsAs_dimStatement o m.past hpast
        | PRINT => exact endsAs_printStatement o m.past hpast
        | INPUT => exact endsAs_inputStatement o m.past hpast
        | IF =>
          exact ifStatement_eq hpast fun n hn => ih (hpast.walked hn)
            (Nat.le_trans (rest_le hn.current hn.forward) hrest)
        | GOTO => exact endsAs_gotoStatement o m.past hpast
        | GOSUB => exact endsAs_gosubStatement o m.past hpast
        | FOR => exact endsAs_forStatement o m.past hpast
        | NEXT => exact nextStatement_eq hpast
        | DEF => exact endsAs_defStatement o m.past hpast
        | READ => exact endsAs_items endsAs_readItem stays_readItem o m.past hpast
        | _ => rfl

/-! ### Steps -/

theorem execute_eq (hm : m.Active o) : execute m = ofEnding Machine.execute m := by
  rw [execute, Machine.execute]
  refine bind_eq (skipWhile_eq _ m) fun _ m₁ hend => ?_
  rw [get_bind_eq, ofEnding_get_bind]
  split
  · rfl
  · refine bind_eq rfl fun _ m₂ hend₂ => ?_
    have hm₂ : m₂.Active o := by
      cases hend
      cases hend₂
      exact active_atStatement hm
    rw [ofEnding_get_bind]
    exact bind_eq (statement_eq hm₂ (Nat.le_refl _)) fun _ m₃ _ => rfl

/-- No stored line is empty. -/
theorem atEnd_of_advance? {p q : Program} (hp : p.Sound o) (h : p.advance? = some q) :
    q.atEnd = false := by
  rw [Program.advance?] at h
  split at h
  · cases h
  · obtain ⟨k, -, hmove⟩ := Option.bind_eq_some_iff.mp h
    obtain ⟨tokens, htokens, rfl⟩ := Option.map_eq_some_iff.mp hmove
    have hne := hp.lines k tokens htokens
    simpa [Program.atEnd, Line.start] using hne

/-- So a line is left at most once. -/
theorem toStatement_eq (hm : m.Sound o) :
    m.program.toStatement = some (m.toStatement?.map Machine.program) := by
  rw [Program.toStatement, toStatement?]
  split
  · cases hadvance : m.program.advance? with
    | none => rfl
    | some p =>
      have hend := atEnd_of_advance? hm.program hadvance
      dsimp only
      rw [Program.toStatement, if_neg (by simpa using hend)]
      rfl
  · rfl

/-- Leaving a line changes only the place in the program. -/
theorem eq_of_toStatement? {n : Machine} (h : m.toStatement? = some n) :
    { m with program := n.program } = n := by
  rw [toStatement?] at h
  split at h
  · obtain ⟨p, -, rfl⟩ := Option.map_eq_some_iff.mp h
    rfl
  · cases h
    rfl

/-- Every step ends, and without bounds on its evaluation and its loops it does what it does with
them. -/
theorem step_eq (hm : m.Sound o) : step m = some m.step := by
  by_cases hrunning : m.state = .running
  · rw [step, if_neg (by simpa using hrunning), toStatement_eq hm]
    cases hstart : m.toStatement? with
    | none => rw [step_through hrunning hstart]; rfl
    | some n =>
      have hactive := ((hm.active hrunning).toStatement? hstart).announce
      change (execute { m with program := n.program }.announce >>= fun p => _) = _
      rw [eq_of_toStatement? hstart, execute_eq hactive, ofEnding, Machine.step_eq hrunning hstart]
      cases Machine.execute n.announce with
      | ok _ m₁ => rfl
      | error stop m₁ => rfl
  · rw [step, if_pos hrunning, Machine.step, if_pos hrunning]

end LineBasic.Unbounded
