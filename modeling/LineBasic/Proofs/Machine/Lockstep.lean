import LineBasic.Proofs.Machine.OutputActions
import LineBasic.Proofs.Program.OnStoredLines

/-!
# Two machines in step

There are things that a machine does not look at while it executes stored lines, and nothing that is
pending goes back to the immediate line: the immediate line, the point where a run was broken off,
what an earlier `INPUT` has asked, and what was shown and recorded. It writes to them, but two
machines that differ in nothing else do the same, and afterwards they differ in nothing else again.

The second machine is described as the first one under a veil, which puts other values in the place
of these things. How the things of the two machines go together is left open: a margin says which
outputs and which breakpoints may face each other.

## Main definitions

* `Machine.OnStored` — nothing goes on or goes back to the immediate line
* `Veil`, `Machine.veiled` — other values for what is not looked at
* `Margin`, `Machine.Fits` — how the two machines may differ
* `Lockstep` — an action that two such machines do alike

## Main results

* `Lockstep.bind`, `Lockstep.get_bind`, `Lockstep.onProgram` — how two machines are kept in step
* `Machine.callRules_lockstep` — the parts of an evaluation are evaluated in step
* `Machine.statementRules_lockstep` — the parts of a statement are executed in step
* `Machine.lockstep_statement` — so are statements
-/

namespace LineBasic

/-- Other values for what a run of stored lines does not look at. -/
structure Veil where
  immediate : List Token
  breakpoint : Option Location
  branchInput : Option Location
  prompt : Bytes
  output : Array Event
  log : Array LogRecord

/-- How two machines may differ in what they do not look at: the two outputs go together, and still
do when both machines show the same; equal breakpoints go together. -/
structure Margin where
  output : Array Event → Array Event → Prop
  push : ∀ {shown others : Array Event} (e : Event), output shown others →
    output (shown.push e) (others.push e)
  breakpoint : Option Location → Option Location → Prop
  breakpoint_refl : ∀ loc, breakpoint loc loc

namespace Machine

/-- A machine that executes stored lines, and all that is pending goes back to stored lines. -/
def OnStored (m : Machine) : Prop :=
  m.program.OnStored ∧
    ∀ (name : Name) (f : Function), m.functions[name]? = some f → f.body.line.isNumbered = true

/-- A machine with other values for what it does not look at. -/
def veiled (m : Machine) (v : Veil) : Machine :=
  { m with
    program := m.program.veiled v.immediate v.breakpoint
    branchInput := v.branchInput
    prompt := v.prompt
    output := v.output
    log := v.log }

/-- The values that a machine has itself. -/
def veil (m : Machine) : Veil :=
  ⟨m.program.immediate, m.program.breakpoint, m.branchInput, m.prompt, m.output, m.log⟩

theorem veil_veiled (m : Machine) (v : Veil) : (m.veiled v).veil = v := rfl

end Machine

/-- Two machines may have these values side by side. Of the places of `INPUT`s in branches only
those on stored lines matter. -/
structure Margin.Allows (μ : Margin) (u v : Veil) : Prop where
  output : μ.output u.output v.output
  breakpoint : μ.breakpoint u.breakpoint v.breakpoint
  branchInput : u.branchInput.filter (·.line.isNumbered) = v.branchInput.filter (·.line.isNumbered)

namespace Machine

/-- A machine on stored lines, and other values that may stand in the place of its own. -/
structure Fits (μ : Margin) (m : Machine) (v : Veil) : Prop where
  allows : μ.Allows m.veil v
  onStored : m.OnStored

/-- The program may change, as long as the breakpoint stays. -/
theorem Fits.withProgram {μ : Margin} {m : Machine} {v : Veil} {p : Program} (h : m.Fits μ v)
    (hbreakpoint : p.breakpoint = m.program.breakpoint) (hstored : p.OnStored) :
    { m with program := p }.Fits μ v := by
  refine ⟨⟨h.allows.output, ?_, h.allows.branchInput⟩, hstored, h.onStored.2⟩
  change μ.breakpoint p.breakpoint v.breakpoint
  rw [hbreakpoint]
  exact h.allows.breakpoint

end Machine

open Machine

variable {ε α β : Type} {μ : Margin}

/-- An action that two machines do alike, whatever it ends in. -/
def Lockstep (μ : Margin) (x : EStateM ε Machine α) : Prop :=
  ∀ (m : Machine) (v : Veil), m.Fits μ v →
    Concludes
      (fun a m' => ∃ v', x (m.veiled v) = .ok a (m'.veiled v') ∧ m'.Fits μ v')
      (fun e m' => ∃ v', x (m.veiled v) = .error e (m'.veiled v') ∧ m'.Fits μ v')
      (x m)

namespace Lockstep

/-- Both machines succeed, with the same result, or both stop for the same reason. -/
theorem ends {x : EStateM ε Machine α} (hx : Lockstep μ x) {m : Machine} {v : Veil}
    (h : m.Fits μ v) :
    (∃ a m' v', x m = .ok a m' ∧ x (m.veiled v) = .ok a (m'.veiled v') ∧ m'.Fits μ v') ∨
      ∃ e m' v', x m = .error e m' ∧ x (m.veiled v) = .error e (m'.veiled v') ∧ m'.Fits μ v' := by
  have hend := hx m v h
  cases hown : x m with
  | ok a m' =>
    rw [hown] at hend
    obtain ⟨v', hveiled, h'⟩ := hend
    exact .inl ⟨a, m', v', rfl, hveiled, h'⟩
  | error e m' =>
    rw [hown] at hend
    obtain ⟨v', hveiled, h'⟩ := hend
    exact .inr ⟨e, m', v', rfl, hveiled, h'⟩

theorem bind {x : EStateM ε Machine α} {f : α → EStateM ε Machine β} (hx : Lockstep μ x)
    (hf : ∀ a, Lockstep μ (f a)) : Lockstep μ (x >>= f) := by
  intro m v h
  rw [bind_apply, bind_apply]
  rcases hx.ends h with ⟨a, m', v', hown, hveiled, h'⟩ | ⟨e, m', v', hown, hveiled, h'⟩
  · rw [hown, hveiled]
    exact hf a m' v' h'
  · rw [hown, hveiled]
    exact ⟨v', rfl, h'⟩

theorem pure (a : α) : Lockstep μ (Pure.pure a : EStateM ε Machine α) :=
  fun _ v h => ⟨v, rfl, h⟩

theorem throw (e : ε) : Lockstep μ (MonadExcept.throw e : EStateM ε Machine α) :=
  fun _ v h => ⟨v, rfl, h⟩

/-- Looking at what is the same in both machines. -/
theorem get_bind {f : Machine → EStateM ε Machine α} (hsame : ∀ m v, f (m.veiled v) = f m)
    (hf : ∀ m, m.OnStored → Lockstep μ (f m)) : Lockstep μ (get >>= f) := by
  intro m v h
  rw [get_bind_apply, get_bind_apply, hsame]
  exact hf m h.onStored m v h

/-- All that statements look at, but for the place of an `INPUT` in a branch, is the same. -/
theorem look {f : Machine → EStateM ε Machine α}
    (hsame : ∀ (m : Machine) (b : Backdrop),
      f (m.against { b with arrays := m.arrays, reply := m.reply }) = f m)
    (hf : ∀ m, m.OnStored → Lockstep μ (f m)) : Lockstep μ (get >>= f) :=
  get_bind (fun m v => hsame m { m.backdrop with
    immediate := v.immediate
    breakpoint := v.breakpoint
    prompt := v.prompt
    branchInput := v.branchInput
    output := v.output
    log := v.log }) hf

theorem ofEval {x : Eval α} (hx : Lockstep μ x) : Lockstep μ (Machine.ofEval x) := by
  intro m v h
  rw [Machine.ofEval, Machine.ofEval]
  rcases hx.ends h with ⟨a, m', v', hown, hveiled, h'⟩ | ⟨c, m', v', hown, hveiled, h'⟩
  · rw [hown, hveiled]
    exact ⟨v', rfl, h'⟩
  · rw [hown, hveiled]
    exact ⟨v', rfl, h'⟩

theorem ofExcept (r : Except Cause α) : Lockstep μ (Machine.ofExcept r) := by
  cases r with
  | ok a => exact pure a
  | error c => exact throw c

/-- A change that is the same in both machines. -/
theorem change {f : Machine → Machine} (hf : ∀ m v, m.Fits μ v →
      ∃ v', f (m.veiled v) = (f m).veiled v' ∧ (f m).Fits μ v') :
    Lockstep μ (modify f : EStateM ε Machine Unit) := by
  intro m v h
  obtain ⟨v', hveiled, h'⟩ := hf m v h
  exact ⟨v', congrArg (EStateM.Result.ok ()) hveiled, h'⟩

/-- A change of what is looked at, which does not leave the stored lines. -/
theorem keep {f : Machine → Machine} (hf : ∀ m v, f (m.veiled v) = (f m).veiled v)
    (hstored : ∀ m, m.OnStored → (f m).OnStored) :
    Lockstep μ (modify f : EStateM ε Machine Unit) := by
  refine change fun m v h => ⟨v, hf m v, ?_, hstored m h.onStored⟩
  have hown : f m = (f m).veiled m.veil := hf m m.veil
  have hveil : (f m).veil = m.veil := by rw [hown, veil_veiled]
  rw [hveil]
  exact h.allows

/-- Both machines show the same. -/
theorem emit (e : Event) : Lockstep μ (modify (·.emit e) : EStateM ε Machine Unit) :=
  change fun _ v h => ⟨{ v with output := v.output.push e }, rfl,
    { h.allows with output := μ.push e h.allows.output }, h.onStored⟩

/-- An action of a program on stored lines. -/
theorem onProgram {x : Program.Action α} (hx : Program.Agrees x) :
    Lockstep μ (Machine.onProgram x) := by
  intro m v h
  obtain ⟨hveiled, hstored⟩ := hx m.program h.onStored.1
  have hown : x m.program = mapEnd (·.veiled m.program.immediate m.program.breakpoint)
    (x m.program) := hveiled m.program.immediate m.program.breakpoint
  have hother : x (m.veiled v).program = mapEnd (·.veiled v.immediate v.breakpoint)
    (x m.program) := hveiled v.immediate v.breakpoint
  rw [Machine.onProgram, Machine.onProgram, hother]
  cases hend : x m.program with
  | ok a p =>
    rw [hend] at hown hstored
    have hbreakpoint : p.breakpoint = m.program.breakpoint := by
      rw [(EStateM.Result.ok.inj hown).2]
      rfl
    exact ⟨v, rfl, h.withProgram hbreakpoint hstored⟩
  | error c p =>
    rw [hend] at hown hstored
    have hbreakpoint : p.breakpoint = m.program.breakpoint := by
      rw [(EStateM.Result.error.inj hown).2]
      rfl
    exact ⟨v, rfl, h.withProgram hbreakpoint hstored⟩

/-! ### Evaluation -/

/-- Both machines take the same random number, however it is drawn. -/
theorem takeRandom (draw : Random → Float × Random) :
    Lockstep μ (modify fun m =>
      let (x, random) := draw m.random
      { m with lastRandom := x, random } : Eval Unit) :=
  keep (fun _ _ => rfl) fun _ h => h

/-- An array that is made is added to the others. -/
theorem arrayFor_eq (name : Name) (axes : Nat) :
    Machine.arrayFor name axes = (do
      let m ← get
      match m.arrays[name]? with
      | some g => return g
      | none =>
        let g ← Machine.ofExcept
          (Grid.make name.isString (List.replicate axes implicitSize) m.maxElements)
        modify fun m => { m with arrays := m.arrays.insert name g }
        return g) := by
  funext m
  rw [Machine.arrayFor, get_bind_apply, get_bind_apply]
  cases m.arrays[name]? with
  | some g => rfl
  | none =>
    dsimp only
    rw [bind_apply, bind_apply]
    cases Grid.make name.isString (List.replicate axes implicitSize) m.maxElements with
    | ok g => rfl
    | error c => rfl

theorem arrayFor (name : Name) (axes : Nat) : Lockstep μ (Machine.arrayFor name axes) := by
  rw [arrayFor_eq]
  refine get_bind (fun _ _ => rfl) fun m _ => ?_
  cases m.arrays[name]? with
  | some g => exact pure g
  | none =>
    exact (ofExcept _).bind fun g => bind (keep (fun _ _ => rfl) fun _ h => h) fun _ => pure g

/-- Both machines return from a function, whether it succeeds or fails. -/
theorem inFunction {x : Eval α} (hx : Lockstep μ x) : Lockstep μ (Machine.inFunction x) := by
  have hpop : Lockstep μ (Machine.onProgram Program.popFunction) :=
    onProgram Program.agrees_popFunction
  intro m v h
  rw [Machine.inFunction, Machine.inFunction]
  rcases hx.ends h with ⟨a, m', v', hown, hveiled, h'⟩ | ⟨c, m', v', hown, hveiled, h'⟩
  all_goals
    rw [hown, hveiled]
    rcases hpop.ends h' with ⟨_, m'', v'', hback, hback', h''⟩ | ⟨_, m'', v'', hback, hback', h''⟩
    all_goals
      simp only [hback, hback']
      exact ⟨v'', rfl, h''⟩

end Lockstep

namespace Machine

theorem callRules_lockstep (μ : Margin) : CallRules OnStored fun _ => Lockstep μ where
  pure := .pure
  throw _ _ _ := .throw _
  bind := .bind
  look hsame hf := .look (fun m _ => hsame m _) hf
  skip _ := .keep (fun _ _ => rfl) fun _ h => h
  draw := .takeRandom Random.draw
  arrayFor := .arrayFor
  enter params hm hf := .onProgram (Program.agrees_pushFunction params (hm.2 _ _ hf))
  inFunction := .inFunction

/-! ### Parts of statements -/

/-- A walk along the line. -/
theorem lockstep_modifyProgram {f : Program → Program}
    (hsame : ∀ p immediate breakpoint,
      f (p.veiled immediate breakpoint) = (f p).veiled immediate breakpoint)
    (hstored : ∀ p, p.OnStored → (f p).OnStored) : Lockstep μ (modifyProgram f) := by
  refine .keep (fun m v => ?_) fun m h => ⟨hstored _ h.1, h.2⟩
  exact congrArg (fun p => { m.veiled v with program := p }) (hsame _ _ _)

theorem lockstep_setVariable (name : Name) (v : Value) : Lockstep μ (setVariable name v) :=
  .keep (fun _ _ => rfl) fun _ h => h

/-- Both machines remember what is asked. -/
theorem lockstep_ask (prompt : Bytes) :
    Lockstep μ (modify fun m => { m with prompt } : Exec Unit) :=
  .change fun _ v h => ⟨{ v with prompt }, rfl, { h.allows with }, h.onStored⟩

/-- An `INPUT` on a stored line is in a branch for both machines or for none. -/
theorem lockstep_endBranch {keyword : Location} (hkeyword : keyword.line.isNumbered = true) :
    Lockstep μ (endBranch keyword) := by
  have hplace : ∀ place : Option Location,
      place = some keyword ↔ place.filter (·.line.isNumbered) = some keyword := by
    intro place
    simp [Option.filter_eq_some_iff, hkeyword]
  intro m v h
  rw [endBranch, get_bind_apply, get_bind_apply]
  have hboth : v.branchInput = some keyword ↔ m.branchInput = some keyword := by
    rw [hplace, hplace m.branchInput]
    exact Eq.congr_left h.allows.branchInput.symm
  change Concludes
    (fun _ _ => ∃ _, (if v.branchInput = some keyword then _ else _ : Exec Unit) _ = _ ∧ _)
    (fun _ _ => ∃ _, (if v.branchInput = some keyword then _ else _ : Exec Unit) _ = _ ∧ _) _
  by_cases hbranch : m.branchInput = some keyword
  · rw [if_pos hbranch, if_pos (hboth.mpr hbranch)]
    exact ⟨{ v with branchInput := none }, rfl, { h.allows with branchInput := rfl }, h.onStored⟩
  · rw [if_neg hbranch, if_neg (mt hboth.mp hbranch)]
    exact ⟨v, rfl, h⟩

theorem lockstep_aloneOnLine {statement : Exec Unit} (hstatement : Lockstep μ statement) :
    Lockstep μ (aloneOnLine statement) := by
  intro m v h
  rw [aloneOnLine, aloneOnLine]
  rcases hstatement.ends h with ⟨_, m', v', hown, hveiled, h'⟩ | ⟨stop, m', v', hown, hveiled, h'⟩
  · rw [hown, hveiled]
    have hjumped : (m'.veiled v').program.jumped = m'.program.jumped := rfl
    dsimp only
    rw [hjumped]
    cases m'.program.jumped with
    | true => exact ⟨v', rfl, h'⟩
    | false => exact ⟨v', rfl, h'.allows, h'.onStored⟩
  · rw [hown, hveiled]
    cases stop with
    | fault c => exact ⟨v', rfl, h'⟩
    | signal s =>
      cases s with
      | finish => exact ⟨v', rfl, h'⟩
      | stop => exact ⟨v', rfl, h'⟩
      | awaitInput =>
        exact ⟨{ v' with branchInput := some m'.program.location }, rfl,
          { h'.allows with branchInput := rfl }, h'.onStored⟩

/-- A function that is defined on a stored line has its body there. -/
theorem lockstep_define (name : Name) {f : Function} (hbody : f.body.line.isNumbered = true) :
    Lockstep μ (modify fun m => { m with functions := m.functions.insert name f } : Exec Unit) := by
  refine .keep (fun _ _ => rfl) fun m h => ⟨h.1, fun other g hg => ?_⟩
  rw [Std.ExtTreeMap.getElem?_insert] at hg
  split at hg
  · cases hg
    exact hbody
  · exact h.2 other g hg

/-! ### Every statement -/

theorem statementRules_lockstep (μ : Margin) : StatementRules OnStored fun _ => Lockstep μ where
  pure := .pure
  bind := .bind
  look := .look
  fail _ _ := .throw _
  ofExcept _ := .ofEval (.ofExcept _)
  accept _ := .ofEval (.onProgram (Program.agrees_accept _))
  expect _ := .ofEval (.onProgram (Program.agrees_expect _))
  nextName := .ofEval (.onProgram Program.agrees_nextName)
  expression := .ofEval (callRules_lockstep μ).expression
  numberExpression := .ofEval (callRules_lockstep μ).numberExpression
  subscripts := .ofEval (callRules_lockstep μ).subscripts
  target := .ofEval ((callRules_lockstep μ).target (.onProgram Program.agrees_nextName)
    (.onProgram (Program.agrees_accept _)))
  assign t v := .ofEval ((callRules_lockstep μ).assign lockstep_setVariable
    (fun _ _ => .keep (fun _ _ => rfl) fun _ h => h) t v)
  emit := .emit
  ask := lockstep_ask
  throw := .throw
  acceptThen := .ofEval (.onProgram (Program.agrees_accept _))
  skip _ := lockstep_modifyProgram (fun _ _ _ => rfl) fun _ h => h
  skipStatement := lockstep_modifyProgram (fun _ _ _ => rfl) fun _ h => h
  discardRest := lockstep_modifyProgram (fun _ _ _ => rfl) fun _ h => h
  restore := lockstep_modifyProgram (fun _ _ _ => rfl) fun _ h => h
  setVariable name v := .ofEval (lockstep_setVariable name v)
  setArray _ _ := .keep (fun _ _ => rfl) fun _ h => h
  define _ hm name _ _ := lockstep_define name hm.1.1
  nextDatum := .ofEval (.onProgram Program.agrees_nextDatum)
  rewind := .ofEval (.onProgram (Program.agrees_rewindBefore _))
  dropReply := .keep (fun _ _ => rfl) fun _ h => h
  endBranch _ hm _ := lockstep_endBranch hm.1.1
  aloneOnLine := lockstep_aloneOnLine
  goTo n := .ofEval (.onProgram (Program.agrees_goTo n))
  gosub n := .ofEval (.onProgram (Program.agrees_gosub n))
  returnFromGosub := .ofEval (.onProgram Program.agrees_returnFromGosub)
  startLoop name limit step := .ofEval (.onProgram (Program.agrees_startLoop name limit step))
  endLoop name value := .ofEval (.onProgram (Program.agrees_endLoop name value))

/-- Every statement is executed in step. -/
theorem lockstep_statement (tokens : Nat) : Lockstep μ (statement tokens) :=
  (statementRules_lockstep μ).statement tokens

theorem lockstep_endStatement : Lockstep μ endStatement :=
  (statementRules_lockstep μ).endStatement (.ofEval (.onProgram (Program.agrees_accept _)))
    (statementRules_lockstep μ).discardRest

end Machine

end LineBasic
