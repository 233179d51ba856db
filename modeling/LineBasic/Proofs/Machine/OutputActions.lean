import LineBasic.Proofs.Machine.Advance

/-!
# Actions that add to the output

Output and log are only ever added to. An action that adds to them does the same whatever was shown
and recorded before; here this is shown of the statement that takes a reply, and of the end of a
step.

## Main definitions

* `Machine.after` — a machine as if other output and other records had come first
* `Adds` — an action that only adds to the output and the log
* `Machine.endStep` — what a step leaves behind when its statement has ended

## Main results

* `Machine.adds_takeReply`, `Machine.adds_endStatement` — taking a reply
* `Machine.step_eq` — a step is the statement and what it leaves behind
* `Machine.endStep_after` — what is left behind does not depend on what came before
-/

namespace LineBasic

variable {ε α β : Type}

namespace Machine

/-- The machine as if other output and other records had come first. -/
def after (m : Machine) (output : Array Event) (log : Array LogRecord) : Machine :=
  { m with output := output ++ m.output, log := log ++ m.log }

end Machine

open Machine

/-- An action that does not look at what was shown and recorded before, and only adds to it. -/
def Adds (x : EStateM ε Machine α) : Prop :=
  ∀ m output log, x (m.after output log) = mapEnd (·.after output log) (x m)

namespace Adds

theorem bind {x : EStateM ε Machine α} {f : α → EStateM ε Machine β} (hx : Adds x)
    (hf : ∀ a, Adds (f a)) : Adds (x >>= f) := by
  intro m output log
  rw [bind_apply, bind_apply, hx]
  cases x m with
  | ok a m' => exact hf a m' output log
  | error e m' => rfl

theorem pure (a : α) : Adds (Pure.pure a : EStateM ε Machine α) :=
  fun _ _ _ => rfl

theorem throw (e : ε) : Adds (MonadExcept.throw e : EStateM ε Machine α) :=
  fun _ _ _ => rfl

theorem modify {f : Machine → Machine}
    (hf : ∀ m output log, f (m.after output log) = (f m).after output log) :
    Adds (modify f : EStateM ε Machine Unit) :=
  fun m output log => congrArg (EStateM.Result.ok ()) (hf m output log)

theorem get_bind {f : Machine → EStateM ε Machine α}
    (hsame : ∀ m output log, f (m.after output log) = f m) (hf : ∀ m, Adds (f m)) :
    Adds (get >>= f) := by
  intro m output log
  rw [get_bind_apply, get_bind_apply, hsame]
  exact hf m m output log

/-- Looking at what statements look at. -/
theorem look {f : Machine → EStateM ε Machine α}
    (hsame : ∀ (m : Machine) (b : Backdrop),
      f (m.against { b with arrays := m.arrays, reply := m.reply }) = f m)
    (hf : ∀ m, Adds (f m)) : Adds (get >>= f) :=
  get_bind (fun m output log => hsame m { m.backdrop with
    output := output ++ m.output
    log := log ++ m.log }) hf

theorem ofExcept (r : Except Cause α) : Adds (Machine.ofExcept r) := by
  cases r with
  | ok a => exact pure a
  | error c => exact throw c

theorem onProgram (x : Program.Action α) : Adds (Machine.onProgram x) := by
  intro m output log
  have hprogram : (m.after output log).program = m.program := rfl
  rw [Machine.onProgram, Machine.onProgram, hprogram]
  cases x m.program with
  | ok a p => rfl
  | error c p => rfl

theorem ofEval {x : Eval α} (hx : Adds x) : Adds (Machine.ofEval x) := by
  intro m output log
  rw [Machine.ofEval, Machine.ofEval, hx]
  cases x m with
  | ok a m' => rfl
  | error c m' => rfl

/-- A function returns in the same way, whether it succeeds or fails. -/
theorem inFunction {x : Eval α} (hx : Adds x) : Adds (Machine.inFunction x) := by
  have hpop : Adds (Machine.onProgram Program.popFunction) := onProgram _
  intro m output log
  rw [Machine.inFunction, Machine.inFunction, hx]
  cases x m with
  | ok a m' =>
    dsimp only [mapEnd]
    rw [hpop]
    cases Machine.onProgram Program.popFunction m' <;> rfl
  | error c m' =>
    dsimp only [mapEnd]
    rw [hpop]
    cases Machine.onProgram Program.popFunction m' <;> rfl

end Adds

namespace Machine

variable {m m' : Machine} {output : Array Event} {log : Array LogRecord}

theorem emit_after (m : Machine) (output : Array Event) (log : Array LogRecord) (e : Event) :
    (m.after output log).emit e = (m.emit e).after output log := by
  rw [emit, emit, after, after]
  dsimp only
  rw [Array.append_push]

/-! ### Evaluation and statements -/

theorem adds_takeRandom (draw : Random → Float × Random) :
    Adds (modify fun m =>
      let (x, random) := draw m.random
      { m with lastRandom := x, random } : Eval Unit) :=
  .modify fun _ _ _ => rfl

theorem adds_arrayFor (name : Name) (axes : Nat) : Adds (arrayFor name axes) := by
  intro m output log
  have harrays : (m.after output log).arrays = m.arrays := rfl
  rw [arrayFor, get_bind_apply, get_bind_apply, harrays]
  cases m.arrays[name]? with
  | some g => rfl
  | none =>
    dsimp only
    change (ofExcept (Grid.make _ _ m.maxElements) >>= _) _ = _
    rw [bind_apply, bind_apply]
    cases Grid.make name.isString (List.replicate axes implicitSize) m.maxElements with
    | ok g => rfl
    | error c => rfl

theorem callRules_adds : CallRules (fun _ => True) fun _ => Adds where
  pure := .pure
  throw _ _ _ := .throw _
  bind := .bind
  look hsame hf := .look (fun m _ => hsame m _) fun m => hf m trivial
  skip _ := .modify fun _ _ _ => rfl
  draw := adds_takeRandom Random.draw
  arrayFor := adds_arrayFor
  enter _ _ _ := .onProgram _
  inFunction := .inFunction

theorem adds_modifyProgram (f : Program → Program) : Adds (modifyProgram f) :=
  .modify fun _ _ _ => rfl

theorem adds_assign (t : Target) (v : Value) : Adds (assign t v) :=
  callRules_adds.assign (fun _ _ => .modify fun _ _ _ => rfl)
    (fun _ _ => .modify fun _ _ _ => rfl) t v

theorem adds_endBranch (keyword : Location) : Adds (endBranch keyword) := by
  refine .get_bind (fun _ _ _ => rfl) fun m => ?_
  split
  · exact .modify fun _ _ _ => rfl
  · exact .pure ()

theorem adds_aloneOnLine {x : Exec Unit} (hx : Adds x) : Adds (aloneOnLine x) := by
  intro m output log
  rw [aloneOnLine, aloneOnLine, hx]
  cases x m with
  | ok _ m' =>
    dsimp only [mapEnd]
    have hjumped : (m'.after output log).program.jumped = m'.program.jumped := rfl
    rw [hjumped]
    split <;> rfl
  | error stop m' =>
    cases stop with
    | fault c => rfl
    | signal s => cases s <;> rfl

theorem statementRules_adds : StatementRules (fun _ => True) fun _ => Adds where
  pure := .pure
  bind := .bind
  look hsame hf := .look hsame fun m => hf m trivial
  fail _ _ := .throw _
  ofExcept _ := .ofEval (.ofExcept _)
  accept _ := .ofEval (.onProgram _)
  expect _ := .ofEval (.onProgram _)
  nextName := .ofEval (.onProgram _)
  expression := .ofEval callRules_adds.expression
  numberExpression := .ofEval callRules_adds.numberExpression
  subscripts := .ofEval callRules_adds.subscripts
  target := .ofEval (callRules_adds.target (.onProgram _) (.onProgram _))
  assign t v := .ofEval (adds_assign t v)
  emit e := .modify fun m output log => emit_after m output log e
  ask _ := .modify fun _ _ _ => rfl
  throw := .throw
  acceptThen := .ofEval (.onProgram _)
  skip _ := adds_modifyProgram _
  skipStatement := adds_modifyProgram _
  discardRest := adds_modifyProgram _
  restore := adds_modifyProgram _
  setVariable _ _ := .ofEval (.modify fun _ _ _ => rfl)
  setArray _ _ := .modify fun _ _ _ => rfl
  define _ _ _ _ _ := .modify fun _ _ _ => rfl
  nextDatum := .ofEval (.onProgram _)
  rewind := .ofEval (.onProgram _)
  dropReply := .modify fun _ _ _ => rfl
  endBranch _ _ _ := adds_endBranch _
  aloneOnLine := adds_aloneOnLine
  goTo _ := .ofEval (.onProgram _)
  gosub _ := .ofEval (.onProgram _)
  returnFromGosub := .ofEval (.onProgram _)
  startLoop _ _ _ := .ofEval (.onProgram _)
  endLoop _ _ := .ofEval (.onProgram _)

/-- Taking a reply does the same whatever was shown before. -/
theorem adds_takeReply (t : Target) (reply prompt : Bytes) (keyword : Location) :
    Adds (takeReply t reply prompt keyword) :=
  statementRules_adds.takeReply (adds_endBranch keyword) (statementRules_adds.waits prompt) t reply

theorem adds_endStatement : Adds endStatement :=
  statementRules_adds.endStatement (.ofEval (.onProgram _)) (adds_modifyProgram _)

/-! ### How a step ends -/

/-- What a step leaves behind when the statement, which started on `line`, has ended. -/
def endStep (line : Line) : EStateM.Result Stop Machine Unit → Option Fault × Machine
  | .ok () m =>
    match m.toStatement? with
    | some m => (none, m)
    | none => (none, m.enter .idle)
  | .error (.signal .finish) m => (none, m.enter .idle)
  | .error (.signal .stop) m => (none, m.markBreak.enter .idle)
  | .error (.signal .awaitInput) m => (none, m.enter .awaitingInput)
  | .error (.fault cause) m => (some (m.abort cause line).1, (m.abort cause line).2)

theorem step_eq (hrunning : m.state = .running) (hstart : m.toStatement? = some m') :
    m.step = endStep m'.program.location.line (execute m'.announce) := by
  rw [step, if_neg (by simpa using hrunning), hstart]
  dsimp only
  cases execute m'.announce with
  | ok _ m => rfl
  | error stop m =>
    cases stop with
    | fault cause => rfl
    | signal s => cases s <;> rfl

/-- Behind the last line a step ends the run. -/
theorem step_through (hrunning : m.state = .running) (hstart : m.toStatement? = none) :
    m.step = (none, m.enter .idle) := by
  rw [step, if_neg (by simpa using hrunning), hstart]

/-- A step makes the machine wait only if its statement does. -/
theorem exists_of_endStep_waits {line : Line} {r : EStateM.Result Stop Machine Unit}
    (hrunning : ∀ m, r = .ok () m → m.state = .running)
    (h : (endStep line r).2.state = .awaitingInput) : ∃ m, r = .error (.signal .awaitInput) m := by
  match r with
  | .ok () m =>
    exfalso
    rw [endStep] at h
    split at h
    · next m' hnext =>
      obtain ⟨p, rfl⟩ := exists_of_toStatement? hnext
      cases (hrunning m rfl).symm.trans h
    · cases h
  | .error (.signal .awaitInput) m => exact ⟨m, rfl⟩
  | .error (.signal .finish) m => cases h
  | .error (.signal .stop) m => cases h
  | .error (.fault cause) m => cases h

theorem record_after (m : Machine) (output : Array Event) (log : Array LogRecord) (r : LogRecord) :
    (m.after output log).record r = (m.record r).after output log := by
  rw [record, record, after, after]
  dsimp only
  rw [Array.append_push]

theorem enter_after (m : Machine) (output : Array Event) (log : Array LogRecord) (s : State) :
    (m.after output log).enter s = (m.enter s).after output log := by
  have hstate : (m.after output log).state = m.state := rfl
  rw [enter, enter, hstate]
  by_cases hsame : m.state = s
  · rw [if_pos hsame, if_pos hsame]
    rfl
  · rw [if_neg hsame, if_neg hsame, record_after]
    rfl

theorem toStatement?_after (m : Machine) (output : Array Event) (log : Array LogRecord) :
    (m.after output log).toStatement? = m.toStatement?.map (·.after output log) := by
  rw [toStatement?, toStatement?]
  change (if m.program.atEnd = true then m.program.advance?.map _ else _) = _
  split
  · rw [Option.map_map]
    rfl
  · rfl

/-- How a step ends does not depend on what came before either. -/
theorem endStep_after (line : Line) (output : Array Event) (log : Array LogRecord)
    (r : EStateM.Result Stop Machine Unit) :
    endStep line (mapEnd (·.after output log) r) =
      ((endStep line r).1, (endStep line r).2.after output log) := by
  match r with
  | .ok () m =>
    rw [mapEnd, endStep, endStep, toStatement?_after]
    cases m.toStatement? with
    | some m' => rfl
    | none => exact congrArg (Prod.mk none) (enter_after m output log .idle)
  | .error (.signal .finish) m => exact congrArg (Prod.mk none) (enter_after m output log .idle)
  | .error (.signal .stop) m =>
    rw [mapEnd, endStep, endStep]
    have hmark : (m.after output log).markBreak = m.markBreak.after output log := by
      rw [markBreak, markBreak]
      exact emit_after { m with program := m.program.interrupt } output log _
    rw [hmark, enter_after]
  | .error (.signal .awaitInput) m =>
    exact congrArg (Prod.mk none) (enter_after m output log .awaitingInput)
  | .error (.fault cause) m =>
    have hleft := enter_after { m with
      program := m.program.resetStacks.clearBreakpoint
      reply := none
      branchInput := none } output log .idle
    have habort : ((m.after output log).abort cause line).2 =
        (m.abort cause line).2.after output log :=
      (congrArg (fun m => m.record (.failure (cause.at line) line)) hleft).trans
        (record_after _ _ _ _)
    rw [mapEnd, endStep, endStep, habort]
    rfl

end Machine

end LineBasic
