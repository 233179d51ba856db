import LineBasic.Proofs.Machine.Lockstep
import LineBasic.Proofs.Machine.Reply

/-!
# Two runs alike

A host that takes steps and gives replies sees the same of two machines that differ only in what a
run of stored lines does not look at: each move is answered in the same way, and the machines still
differ in nothing else afterwards. So this holds of any sequence of moves.

Between two statements one more thing may differ, which is whether the last statement transferred
control; it is forgotten when the next statement starts.

## Main definitions

* `Margin.since`, `Margin.any` — the same was shown since then, or anything
* `Machine.Alike` — two machines that differ only in what is not looked at
* `Move`, `Report` — what a host does during a run, and what it is told
* `Machine.moves` — a sequence of moves
* `Machine.Same` — what two such machines have in common
* `Machine.RunsLike` — what a host sees of them

## Main results

* `Machine.Alike.step`, `Machine.Alike.perform` — one move
* `Machine.Alike.moves` — any sequence of moves
* `Machine.Alike.runSteps` — a bounded run
* `Machine.Alike.runsLike` — all that a host sees
-/

namespace LineBasic

/-- Two outputs have become longer by the same events. -/
def Margin.since (shown others : Array Event)
    (breakpoint : Option Location → Option Location → Prop)
    (breakpoint_refl : ∀ loc, breakpoint loc loc) : Margin where
  output a b := ∃ events, a = shown ++ events ∧ b = others ++ events
  push := by
    rintro _ _ e ⟨events, rfl, rfl⟩
    exact ⟨events.push e, by simp⟩
  breakpoint
  breakpoint_refl

/-- It does not matter what was shown, nor where a run was broken off. -/
def Margin.any : Margin where
  output _ _ := True
  push _ _ := trivial
  breakpoint _ _ := True
  breakpoint_refl _ := trivial

/-! ### Moves -/

/-- What a host does during a run. -/
inductive Move where
  /-- Takes one step. -/
  | step
  /-- Gives a reply. -/
  | reply (text : Bytes)
deriving DecidableEq

/-- The operation that a move is. -/
def Move.operation : Move → Operation
  | .step => .step
  | .reply text => .provideInput text

/-- What a host is told about a move. -/
inductive Report where
  /-- Nothing went wrong. -/
  | fine
  /-- The statement failed. -/
  | failed (fault : Fault)
  /-- Nothing has asked for the reply. -/
  | refused
deriving DecidableEq

namespace Machine

/-- What a host is told about a move. -/
def report (m : Machine) : Move → Report
  | .step => m.step.1.elim .fine .failed
  | .reply text => (m.provideInput? text).elim .refused fun _ => .fine

/-- What a host is told about a sequence of moves, and the machine after them. -/
def moves (m : Machine) : List Move → List Report × Machine
  | [] => ([], m)
  | a :: as =>
    let rest := (m.perform a.operation).moves as
    (m.report a :: rest.1, rest.2)

variable {μ : Margin} {o : Options} {m n k : Machine}

theorem Reachable.moves (h : Reachable o m) (as : List Move) : Reachable o (m.moves as).2 := by
  induction as generalizing m with
  | nil => exact h
  | cons a as ih => exact ih (h.perform a.operation)

/-- While a machine is neither running nor waiting, a step does nothing and replies are refused. -/
theorem Stopped.moves (h : m.Stopped) (as : List Move) :
    m.moves as = (as.map fun | .step => .fine | .reply _ => .refused, m) := by
  have hstep : m.step = (none, m) := if_pos fun hrunning => h (.inl hrunning)
  have hreply : ∀ text, m.provideInput? text = none := fun _ =>
    if_neg fun hwaiting => h (.inr hwaiting)
  induction as with
  | nil => rfl
  | cons a as ih =>
    have hsame : m.perform a.operation = m := by
      cases a with
      | step => exact congrArg Prod.snd hstep
      | reply text => exact congrArg (Option.getD · m) (hreply text)
    rw [Machine.moves, hsame, ih]
    cases a with
    | step => simp [report, hstep]
    | reply text => simp [report, hreply]

/-! ### Two machines -/

/-- A machine that has, or has not, just transferred control. -/
def withJumped (m : Machine) (jumped : Bool) : Machine :=
  { m with program := { m.program with jumped } }

/-- The first machine is on stored lines, and the second one differs from it only in what a run of
stored lines does not look at. -/
def Alike (μ : Margin) (m n : Machine) : Prop :=
  ∃ v jumped, n = (m.veiled v).withJumped jumped ∧ m.Fits μ v

/-- What two machines have in common that differ only in what a run of stored lines does not look
at, apart from the place. -/
structure Same (m n : Machine) : Prop where
  maxElements : n.maxElements = m.maxElements
  maxCalls : n.program.maxCalls = m.program.maxCalls
  maxLoops : n.program.maxLoops = m.program.maxLoops
  state : n.state = m.state
  scalars : n.scalars = m.scalars
  arrays : n.arrays = m.arrays
  functions : n.functions = m.functions
  random : n.random = m.random
  lastRandom : n.lastRandom = m.lastRandom
  tracing : n.tracing = m.tracing
  reply : n.reply = m.reply
  lines : n.program.lines = m.program.lines
  calls : n.program.calls = m.program.calls
  loops : n.program.loops = m.program.loops
  dataIndex : n.program.dataIndex = m.program.dataIndex

namespace Same

theorem refl (m : Machine) : m.Same m :=
  ⟨rfl, rfl, rfl, rfl, rfl, rfl, rfl, rfl, rfl, rfl, rfl, rfl, rfl, rfl, rfl⟩

theorem trans (h : m.Same n) (h' : n.Same k) : m.Same k where
  maxElements := h'.maxElements.trans h.maxElements
  maxCalls := h'.maxCalls.trans h.maxCalls
  maxLoops := h'.maxLoops.trans h.maxLoops
  state := h'.state.trans h.state
  scalars := h'.scalars.trans h.scalars
  arrays := h'.arrays.trans h.arrays
  functions := h'.functions.trans h.functions
  random := h'.random.trans h.random
  lastRandom := h'.lastRandom.trans h.lastRandom
  tracing := h'.tracing.trans h.tracing
  reply := h'.reply.trans h.reply
  lines := h'.lines.trans h.lines
  calls := h'.calls.trans h.calls
  loops := h'.loops.trans h.loops
  dataIndex := h'.dataIndex.trans h.dataIndex

/-- At the same place such machines are alike. -/
theorem alike (h : m.Same n) (hlocation : n.program.location = m.program.location)
    (hcurrent : n.program.current = m.program.current) (hallows : μ.Allows m.veil n.veil)
    (hstored : m.OnStored) : Alike μ m n := by
  refine ⟨n.veil, n.program.jumped, ?_, hallows, hstored⟩
  have hprogram : n.program = { m.program.veiled n.program.immediate n.program.breakpoint with
      jumped := n.program.jumped } := by
    simp only [Program.veiled, ← h.maxCalls, ← h.maxLoops, ← h.lines, ← h.calls, ← h.loops,
      ← h.dataIndex, ← hlocation, ← hcurrent]
  simp only [veiled, withJumped, veil, ← h.maxElements, ← h.state, ← h.scalars, ← h.arrays,
    ← h.functions, ← h.random, ← h.lastRandom, ← h.tracing, ← h.reply]
  exact congrArg (fun program => { n with program }) hprogram

end Same

namespace Alike

theorem refl (houtput : μ.output m.output m.output) (hstored : m.OnStored) : Alike μ m m :=
  (Same.refl m).alike rfl rfl ⟨houtput, μ.breakpoint_refl _, rfl⟩ hstored

theorem same (h : Alike μ m n) : m.Same n := by
  obtain ⟨v, jumped, rfl, -⟩ := h
  exact { Same.refl m with }

theorem place (h : Alike μ m n) : n.program.location = m.program.location ∧
    n.program.current = m.program.current := by
  obtain ⟨v, jumped, rfl, -⟩ := h
  exact ⟨rfl, rfl⟩

theorem onStored (h : Alike μ m n) : m.OnStored := by
  obtain ⟨v, jumped, rfl, h⟩ := h
  exact h.onStored

theorem branchInput (h : Alike μ m n) : m.branchInput.filter (·.line.isNumbered) =
    n.branchInput.filter (·.line.isNumbered) := by
  obtain ⟨v, jumped, rfl, h⟩ := h
  exact h.allows.branchInput

theorem output (h : Alike μ m n) : μ.output m.output n.output := by
  obtain ⟨v, jumped, rfl, h⟩ := h
  exact h.allows.output

theorem breakpoint (h : Alike μ m n) : μ.breakpoint m.program.breakpoint n.program.breakpoint := by
  obtain ⟨v, jumped, rfl, h⟩ := h
  exact h.allows.breakpoint

/-- What an `INPUT` asks can be read off the place where it waits. -/
theorem prompt (h : Alike μ m n) (hm : Reachable o m) (hn : Reachable o n)
    (hwaiting : m.state = .awaitingInput) : n.prompt = m.prompt := by
  have hwaiting' : n.state = .awaitingInput := h.same.state.trans hwaiting
  have hpeek : n.past.program.peek? = m.past.program.peek? := by
    obtain ⟨v, jumped, rfl, -⟩ := h
    rfl
  rw [(hm.inputSound.settled (.inl hwaiting)).2, (hn.inputSound.settled (.inl hwaiting')).2, hpeek]

/-! ### Between statements -/

theorem record (h : Alike μ m n) (r : LogRecord) : Alike μ (m.record r) (n.record r) := by
  obtain ⟨v, jumped, rfl, h⟩ := h
  exact ⟨{ v with log := v.log.push r }, jumped, rfl, { h.allows with }, h.onStored⟩

theorem emit (h : Alike μ m n) (e : Event) : Alike μ (m.emit e) (n.emit e) := by
  obtain ⟨v, jumped, rfl, h⟩ := h
  have houtput := μ.push e h.allows.output
  exact ⟨{ v with output := v.output.push e }, jumped, rfl,
    { h.allows with output := houtput }, h.onStored⟩

theorem withState (h : Alike μ m n) (s : State) :
    Alike μ { m with state := s } { n with state := s } := by
  obtain ⟨v, jumped, rfl, h⟩ := h
  exact ⟨v, jumped, rfl, h.allows, h.onStored⟩

theorem withReply (h : Alike μ m n) (reply : Option Bytes) :
    Alike μ { m with reply } { n with reply } := by
  obtain ⟨v, jumped, rfl, h⟩ := h
  exact ⟨v, jumped, rfl, h.allows, h.onStored⟩

theorem enter (h : Alike μ m n) (s : State) : Alike μ (m.enter s) (n.enter s) := by
  rw [Machine.enter, Machine.enter, h.same.state]
  split
  · exact h.withState s
  · exact (h.record _).withState s

/-- Both runs are broken off at the same place. -/
theorem markBreak (h : Alike μ m n) : Alike μ m.markBreak n.markBreak := by
  obtain ⟨v, jumped, rfl, h⟩ := h
  have hmarked : ∀ p : Program, p.OnStored →
      p.interrupt = { p with breakpoint := some p.location } := fun p hp => if_pos hp.1
  have hmarked' := hmarked ((m.veiled v).withJumped jumped).program h.onStored.1
  rw [Machine.markBreak, Machine.markBreak, hmarked _ h.onStored.1, hmarked']
  refine ⟨{ v with
    breakpoint := some m.program.location
    output := v.output.push (.broke m.program.location.line) }, jumped, rfl, ⟨?_, ?_, ?_⟩, ?_⟩
  · exact μ.push _ h.allows.output
  · exact μ.breakpoint_refl _
  · exact h.allows.branchInput
  · exact h.onStored

/-- Both runs end with the same fault. -/
theorem abort (h : Alike μ m n) (cause : Cause) (line : Line) :
    Alike μ (m.abort cause line).2 (n.abort cause line).2 := by
  have hdropped : Alike μ
      { m with
        program := m.program.resetStacks.clearBreakpoint
        reply := none
        branchInput := none }
      { n with
        program := n.program.resetStacks.clearBreakpoint
        reply := none
        branchInput := none } := by
    obtain ⟨v, jumped, rfl, h⟩ := h
    refine ⟨{ v with breakpoint := none, branchInput := none }, jumped, rfl, ⟨?_, ?_, rfl⟩, ?_⟩
    · exact h.allows.output
    · exact μ.breakpoint_refl none
    · exact ⟨⟨h.onStored.1.1, nofun, nofun⟩, h.onStored.2⟩
  exact (hdropped.enter .idle).record _

/-- Both machines go on to the same line, or neither does. -/
theorem toStatement? (h : Alike μ m n) :
    m.toStatement? = none ∧ n.toStatement? = none ∨
      ∃ m' n', m.toStatement? = some m' ∧ n.toStatement? = some n' ∧ Alike μ m' n' := by
  obtain ⟨v, jumped, rfl, h⟩ := h
  have hend : ((m.veiled v).withJumped jumped).program.atEnd = m.program.atEnd := rfl
  rw [Machine.toStatement?, Machine.toStatement?, hend]
  split
  · rcases Program.advance?_congr (p := m.program)
      (q := ((m.veiled v).withJumped jumped).program) rfl rfl with
      ⟨hown, hveiled⟩ | ⟨k, tokens, hown, hveiled⟩
    · exact .inl ⟨by rw [hown, Option.map_none], by rw [hveiled, Option.map_none]⟩
    · rw [hown, hveiled]
      exact .inr ⟨_, _, rfl, rfl, v, jumped, rfl, h.withProgram rfl ⟨rfl, h.onStored.1.2⟩⟩
  · exact .inr ⟨m, _, rfl, rfl, v, jumped, rfl, h⟩

theorem announce (h : Alike μ m n) : Alike μ m.announce n.announce := by
  rw [Machine.announce, Machine.announce, h.same.tracing, h.place.1]
  split
  · exact (h.emit _).record _
  · exact h.record _

/-! ### Steps -/

/-- Both machines execute the same statement, with the same end. -/
theorem execute (h : Alike μ m n) :
    (∃ m' n', execute m = .ok () m' ∧ execute n = .ok () n' ∧ Alike μ m' n') ∨
      ∃ stop m' n', execute m = .error stop m' ∧ execute n = .error stop n' ∧ Alike μ m' n' := by
  obtain ⟨v, jumped, rfl, h⟩ := h
  have hstart : ((m.veiled v).withJumped jumped).atStatement = m.atStatement.veiled v := rfl
  have hend : ((m.veiled v).withJumped jumped).atStatement.program.atEnd =
      m.atStatement.program.atEnd := rfl
  have hstatement : Lockstep μ
      (statement m.atStatement.program.rest.length >>= fun _ => endStatement) :=
    (lockstep_statement _).bind fun _ => lockstep_endStatement
  rw [execute_apply, execute_apply, hend, hstart]
  split
  · exact .inl ⟨_, _, rfl, rfl, v, jumped, rfl, h.withProgram rfl h.onStored.1⟩
  · have hfits : m.atStatement.Fits μ v := h.withProgram rfl h.onStored.1
    rcases hstatement.ends hfits with
      ⟨_, m', v', hown, hveiled, h'⟩ | ⟨stop, m', v', hown, hveiled, h'⟩
    · exact .inl ⟨m', m'.veiled v', hown, hveiled, v', m'.program.jumped, rfl, h'⟩
    · exact .inr ⟨stop, m', m'.veiled v', hown, hveiled, v', m'.program.jumped, rfl, h'⟩

/-- What is left of the step is the same as well. -/
theorem finish (h : Alike μ m n) (line : Line) :
    (endStep line (.ok () n)).1 = (endStep line (.ok () m)).1 ∧
      Alike μ (endStep line (.ok () m)).2 (endStep line (.ok () n)).2 := by
  rw [endStep, endStep]
  rcases h.toStatement? with ⟨hown, hother⟩ | ⟨m', n', hown, hother, h'⟩
  · rw [hown, hother]
    exact ⟨rfl, h.enter .idle⟩
  · rw [hown, hother]
    exact ⟨rfl, h'⟩

theorem halt (h : Alike μ m n) (line : Line) (stop : Stop) :
    (endStep line (.error stop n)).1 = (endStep line (.error stop m)).1 ∧
      Alike μ (endStep line (.error stop m)).2 (endStep line (.error stop n)).2 := by
  cases stop with
  | fault cause => exact ⟨rfl, h.abort cause line⟩
  | signal s =>
    cases s with
    | finish => exact ⟨rfl, h.enter .idle⟩
    | stop => exact ⟨rfl, h.markBreak.enter .idle⟩
    | awaitInput => exact ⟨rfl, h.enter .awaitingInput⟩

/-- A step fails on both machines with the same fault, or on neither. -/
theorem step (h : Alike μ m n) : n.step.1 = m.step.1 ∧ Alike μ m.step.2 n.step.2 := by
  by_cases hrunning : m.state = .running
  · have hrunning' : n.state = .running := h.same.state.trans hrunning
    rcases h.toStatement? with ⟨hown, hother⟩ | ⟨m', n', hown, hother, h'⟩
    · rw [step_through hrunning hown, step_through hrunning' hother]
      exact ⟨rfl, h.enter .idle⟩
    · rw [step_eq hrunning hown, step_eq hrunning' hother, h'.place.1]
      rcases h'.announce.execute with
        ⟨m'', n'', hown, hother, h''⟩ | ⟨stop, m'', n'', hown, hother, h''⟩
      · rw [hown, hother]
        exact h''.finish _
      · rw [hown, hother]
        exact h''.halt _ stop
  · have hstopped : ¬n.state = .running := by rwa [h.same.state]
    rw [Machine.step, Machine.step, if_pos hrunning, if_pos hstopped]
    exact ⟨rfl, h⟩

theorem steps (h : Alike μ m n) (count : Nat) : Alike μ (m.steps count) (n.steps count) := by
  induction count generalizing m n with
  | zero => exact h
  | succ count ih => exact ih h.step.2

/-- A reply is accepted by both machines or by none. -/
theorem provideInput? (h : Alike μ m n) (text : Bytes) :
    m.provideInput? text = none ∧ n.provideInput? text = none ∨
      ∃ m' n', m.provideInput? text = some m' ∧ n.provideInput? text = some n' ∧
        Alike μ m' n' := by
  by_cases hwaiting : m.state = .awaitingInput
  · exact .inr ⟨_, _, if_pos hwaiting, if_pos (h.same.state.trans hwaiting),
      (h.withReply _).enter .running⟩
  · exact .inl ⟨if_neg hwaiting, if_neg (by rwa [h.same.state])⟩

/-- A move is answered by both machines in the same way. -/
theorem perform (h : Alike μ m n) (a : Move) :
    n.report a = m.report a ∧ Alike μ (m.perform a.operation) (n.perform a.operation) := by
  cases a with
  | step =>
    obtain ⟨hfault, hnext⟩ := h.step
    exact ⟨by rw [report, report, hfault], hnext⟩
  | reply text =>
    change (n.provideInput? text).elim _ _ = (m.provideInput? text).elim _ _ ∧
      Alike μ ((m.provideInput? text).getD m) ((n.provideInput? text).getD n)
    rcases h.provideInput? text with ⟨hown, hother⟩ | ⟨m', n', hown, hother, h'⟩
    · rw [hown, hother]
      exact ⟨rfl, h⟩
    · rw [hown, hother]
      exact ⟨rfl, h'⟩

/-- And so is any sequence of moves. -/
theorem moves (h : Alike μ m n) (as : List Move) :
    (n.moves as).1 = (m.moves as).1 ∧ Alike μ (m.moves as).2 (n.moves as).2 := by
  induction as generalizing m n with
  | nil => exact ⟨rfl, h⟩
  | cons a as ih =>
    obtain ⟨hreport, h'⟩ := h.perform a
    obtain ⟨hreports, hlast⟩ := ih h'
    refine ⟨?_, hlast⟩
    rw [Machine.moves, Machine.moves, hreport, hreports]

/-! ### Bounded runs -/

theorem interrupt (h : Alike μ m n) : Alike μ m.interrupt n.interrupt := by
  rw [Machine.interrupt, Machine.interrupt, h.same.state]
  split
  · exact (h.markBreak.withReply none).enter .idle
  · exact h

theorem run (h : Alike μ m n) (limit turns done taken : Nat) (cancelAfter : Option Nat) :
    (stepper.run limit turns done ⟨n, taken, cancelAfter⟩).1 =
        (stepper.run limit turns done ⟨m, taken, cancelAfter⟩).1 ∧
      (stepper.run limit turns done ⟨n, taken, cancelAfter⟩).2.1 =
        (stepper.run limit turns done ⟨m, taken, cancelAfter⟩).2.1 ∧
      Alike μ (stepper.run limit turns done ⟨m, taken, cancelAfter⟩).2.2.machine
        (stepper.run limit turns done ⟨n, taken, cancelAfter⟩).2.2.machine := by
  induction turns generalizing m n done taken with
  | zero => exact ⟨rfl, rfl, h⟩
  | succ turns ih =>
    have hrunning : stepper.isRunning ⟨n, taken, cancelAfter⟩ =
        stepper.isRunning ⟨m, taken, cancelAfter⟩ := by
      simp [stepper, h.same.state]
    have hcancelled : stepper.isCancelled ⟨n, taken, cancelAfter⟩ =
        stepper.isCancelled ⟨m, taken, cancelAfter⟩ := rfl
    have hstep : ∀ m : Machine, stepper.step ⟨m, taken, cancelAfter⟩ =
        (m.step.1, ⟨m.step.2, taken + 1, cancelAfter⟩) := fun _ => rfl
    obtain ⟨hfault, hnext⟩ := h.step
    rw [Stepper.run, Stepper.run, hrunning, hcancelled, hstep, hstep, hfault]
    split
    · exact ⟨rfl, rfl, h⟩
    · split
      · exact ⟨rfl, rfl, h.interrupt⟩
      · split
        · exact ⟨rfl, rfl, h.interrupt⟩
        · cases m.step.1 with
          | some fault => exact ⟨rfl, rfl, hnext⟩
          | none => exact ih hnext (done + 1) (taken + 1)

/-- Runs of both machines within the same bounds end in the same way and take as many steps. -/
theorem runSteps (h : Alike μ m n) (limit : Nat) (cancelAfter : Option Nat) :
    (n.runSteps limit cancelAfter).1 = (m.runSteps limit cancelAfter).1 ∧
      (n.runSteps limit cancelAfter).2.1 = (m.runSteps limit cancelAfter).2.1 ∧
      Alike μ (m.runSteps limit cancelAfter).2.2 (n.runSteps limit cancelAfter).2.2 :=
  h.run limit (Stepper.turns limit) 0 0 cancelAfter

/-- From here on such machines show the same. -/
theorem anew (h : Alike μ m n) :
    Alike (.since m.output n.output (fun _ _ => True) fun _ => trivial) m n :=
  h.same.alike h.place.1 h.place.2
    ⟨⟨#[], Array.append_empty.symm, Array.append_empty.symm⟩, trivial, h.branchInput⟩ h.onStored

end Alike

/-! ### What a host sees -/

/-- From now on a host sees the same of two machines: whatever moves it makes, if any, the answers,
the values, the place, the prompt and the new output are the same, and bounded runs have the same
end. -/
structure RunsLike (m n : Machine) : Prop where
  reports : ∀ as, (n.moves as).1 = (m.moves as).1
  same : ∀ as, (m.moves as).2.Same (n.moves as).2
  location : ∀ as, (n.moves as).2.program.location = (m.moves as).2.program.location
  prompt : ∀ as, (m.moves as).2.state = .awaitingInput →
    (n.moves as).2.prompt = (m.moves as).2.prompt
  output : ∀ as, ∃ events, (m.moves as).2.output = m.output ++ events ∧
    (n.moves as).2.output = n.output ++ events
  ending : ∀ limit cancelAfter,
    (n.runSteps limit cancelAfter).1 = (m.runSteps limit cancelAfter).1
  count : ∀ limit cancelAfter,
    (n.runSteps limit cancelAfter).2.1 = (m.runSteps limit cancelAfter).2.1

theorem Alike.runsLike (h : Alike μ m n) (hm : Reachable o m) (hn : Reachable o n) :
    m.RunsLike n where
  reports as := (h.moves as).1
  same as := (h.moves as).2.same
  location as := (h.moves as).2.place.1
  prompt as := (h.moves as).2.prompt (hm.moves as) (hn.moves as)
  output as := (h.anew.moves as).2.output
  ending limit cancelAfter := (h.runSteps limit cancelAfter).1
  count limit cancelAfter := (h.runSteps limit cancelAfter).2.1

/-- Where nothing runs, nothing happens. -/
theorem Stopped.runsLike (h : m.Stopped) : m.RunsLike m where
  reports _ := rfl
  same _ := .refl _
  location _ := rfl
  prompt _ _ := rfl
  output as := ⟨#[], by simp [h.moves], by simp [h.moves]⟩
  ending _ _ := rfl
  count _ _ := rfl

end Machine

end LineBasic
