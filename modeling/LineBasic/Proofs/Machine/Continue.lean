import LineBasic.Proofs.Machine.Alike
import LineBasic.Proofs.Machine.Breakpoint
import LineBasic.Proofs.Machine.PrintLine
import LineBasic.Proofs.Machine.Rerun

/-!
# Breaking a run off and going on

A run on stored lines that is broken off between two statements, by the host or because it has taken
as many steps as it may, goes on after `CONT` as if nothing had happened, also when lines were
executed in between that print literals and variables. The break remembers the place; the immediate
line, which takes the place of the current one, drops nothing that is pending, since all of it goes
back to stored lines.

So a run that is cut into pieces computes and shows the same as a run in one piece, but for the
breaks that are shown.

## Main definitions

* `Machine.Ended` — where a bounded run ends
* `Machine.BreaksOff` — how a run is broken off
* `Machine.Paused` — a run was broken off, and all that it needs is still there
* `Machine.Asides` — lines that are executed while a run is broken off
* `Machine.Pieces` — a run in one piece and the same run in pieces

## Main results

* `Machine.runSteps_broken`, `Machine.runSteps_through` — a bounded run in steps
* `Machine.Paused.resume` — what `CONT` does
* `Machine.alike_continued` — a run that was broken off, and the run as it would have been
* `Machine.Pieces.alike` — a run in pieces, and the run in one piece
* `Machine.break_is_transparent` — what a host sees of both
-/

namespace LineBasic

/-- Nothing of a stack is dropped if all of it points to stored lines. -/
theorem Program.numberedPart_eq {α : Type} {location : α → Location} {stack : List α}
    (h : ∀ x ∈ stack, (location x).line.isNumbered = true) :
    numberedPart location stack = stack := by
  rw [numberedPart, List.takeWhile_eq_self_iff.mpr, List.reverse_reverse]
  intro x hx
  exact h x (List.mem_reverse.mp hx)

namespace Machine

variable {μ : Margin} {o : Options} {m m' n b w c : Machine} {line : Bytes}

/-! ### Bounded runs -/

/-- A bounded run has come to an end after some steps, or is broken off after them. -/
inductive Ended (m : Machine) (count : Nat) : RunEnd → Machine → Prop where
  | through {ending : RunEnd} (hlimit : ending ≠ .stepLimit) (hcancel : ending ≠ .cancelled) :
      Ended m count ending (m.steps count)
  | broken {ending : RunEnd} (hending : ending = .stepLimit ∨ ending = .cancelled)
      (hrunning : (m.steps count).state = .running) : Ended m count ending (m.steps count).interrupt

theorem Ended.step {count : Nat} {ending : RunEnd} (h : m.step.2.Ended count ending b) :
    m.Ended (count + 1) ending b := by
  cases h with
  | through hlimit hcancel => exact .through hlimit hcancel
  | broken hending hrunning => exact .broken hending hrunning

theorem run_ended (limit turns done : Nat) (t : Timed) :
    ∃ count, (stepper.run limit turns done t).2.1 = done + count ∧
      t.machine.Ended count (stepper.run limit turns done t).1
        (stepper.run limit turns done t).2.2.machine ∧
      ((stepper.run limit turns done t).1 = .stepLimit → 0 < limit ∧ limit ≤ done + count) := by
  induction turns generalizing done t with
  | zero =>
    rw [Stepper.run]
    exact ⟨0, rfl, .through (by simp) (by simp), by simp⟩
  | succ turns ih =>
    rw [Stepper.run]
    split
    · exact ⟨0, rfl, .through (by simp) (by simp), by simp⟩
    · next hrunning =>
      have hrunning : t.machine.state = .running := by simpa [stepper] using hrunning
      split
      · exact ⟨0, rfl, .broken (.inr rfl) hrunning, by simp⟩
      · split
        · next hlimit =>
          exact ⟨0, rfl, .broken (.inl rfl) hrunning, fun _ => by simpa using hlimit⟩
        · split
          · next fault t' hstep =>
            have ht' : t.machine.step.2 = t'.machine := congrArg (fun r => r.2.machine) hstep
            refine ⟨1, rfl, ?_, by simp⟩
            rw [← ht']
            exact .through (by simp) (by simp)
          · next t' hstep =>
            have ht' : t.machine.step.2 = t'.machine := congrArg (fun r => r.2.machine) hstep
            -- the first step is one of those that count
            obtain ⟨count, hcount, hended, hlimit⟩ := ih (done + 1) t'
            rw [← ht'] at hended
            refine ⟨count + 1, by omega, hended.step, fun h => ?_⟩
            have hdone := hlimit h
            omega

theorem runSteps_ended {limit count : Nat} {cancelAfter : Option Nat} {ending : RunEnd}
    (h : m.runSteps limit cancelAfter = (ending, count, b)) :
    m.Ended count ending b ∧ (ending = .stepLimit → 0 < count) := by
  obtain ⟨k, hk, hended, hlimit⟩ := run_ended limit (Stepper.turns limit) 0 ⟨m, 0, cancelAfter⟩
  obtain ⟨rfl, hrest⟩ := Prod.mk.inj h
  obtain ⟨rfl, rfl⟩ := Prod.mk.inj hrest
  rw [hk, Nat.zero_add]
  refine ⟨hended, fun h => ?_⟩
  have hdone := hlimit h
  omega

/-- A run that is broken off was still running. -/
theorem runSteps_broken {limit count : Nat} {cancelAfter : Option Nat} {ending : RunEnd}
    (h : m.runSteps limit cancelAfter = (ending, count, b))
    (hending : ending = .stepLimit ∨ ending = .cancelled) :
    (m.steps count).state = .running ∧ b = (m.steps count).interrupt := by
  cases (runSteps_ended h).1 with
  | broken _ hrunning => exact ⟨hrunning, rfl⟩
  | through hlimit hcancel => exact absurd hending (not_or.mpr ⟨hlimit, hcancel⟩)

/-- Any other run has taken its steps and nothing else. -/
theorem runSteps_through {limit count : Nat} {cancelAfter : Option Nat} {ending : RunEnd}
    (h : m.runSteps limit cancelAfter = (ending, count, b))
    (hending : ending = .stopped ∨ ∃ fault, ending = .failed fault) : b = m.steps count := by
  cases (runSteps_ended h).1 with
  | broken hbroken hrunning =>
    rcases hending with rfl | ⟨fault, rfl⟩
    · rcases hbroken with h | h <;> cases h
    · rcases hbroken with h | h <;> cases h
  | through hlimit hcancel => rfl

/-- A run is broken off at a machine, by the host, or because it would take more steps than it may
or is cancelled. -/
inductive BreaksOff (m : Machine) : Machine → Prop where
  | interrupt : BreaksOff m m.interrupt
  | runSteps {m₀ b : Machine} {limit count : Nat} {cancelAfter : Option Nat} {ending : RunEnd}
      (run : m₀.runSteps limit cancelAfter = (ending, count, b)) (reached : m₀.steps count = m)
      (broken : ending = .stepLimit ∨ ending = .cancelled) : BreaksOff m b

theorem BreaksOff.eq_interrupt (h : m.BreaksOff b) : b = m.interrupt := by
  cases h with
  | interrupt => rfl
  | runSteps run reached broken =>
    rw [← reached]
    exact (runSteps_broken run broken).2

/-! ### While a run is broken off -/

/-- A run of `m` was broken off, and all that it needs is still there. -/
structure Paused (m n : Machine) : Prop where
  same : { m with state := n.state }.Same n
  breakpoint : n.program.breakpoint = some m.program.location
  branchInput : n.branchInput.filter (·.line.isNumbered) =
    m.branchInput.filter (·.line.isNumbered)

/-- A break on a stored line remembers the place. -/
theorem interrupt_stored (hrunning : m.state = .running)
    (hnumbered : m.program.location.line.isNumbered = true) :
    ∃ log, m.interrupt = { m with
      program := { m.program with breakpoint := some m.program.location }
      output := m.output.push (.broke m.program.location.line)
      reply := none
      state := .idle
      log } := by
  have hmarked : m.program.interrupt = { m.program with breakpoint := some m.program.location } :=
    if_pos hnumbered
  obtain ⟨log, henter⟩ := exists_enter { m.markBreak with reply := none } .idle
  rw [interrupt, if_pos (.inl hrunning), henter, markBreak, hmarked]
  exact ⟨log, rfl⟩

/-- So nothing that the run needs is lost, and nothing else is going on. -/
theorem paused_interrupt (hrunning : m.state = .running)
    (hnumbered : m.program.location.line.isNumbered = true) (hreply : m.reply = none) :
    m.Paused m.interrupt ∧ m.interrupt.state = .idle := by
  obtain ⟨log, hbroken⟩ := interrupt_stored hrunning hnumbered
  rw [hbroken]
  exact ⟨⟨{ Same.refl { m with state := .idle } with reply := hreply.symm }, rfl, rfl⟩, rfl⟩

namespace Paused

theorem enter (h : m.Paused n) (s : State) : m.Paused (n.enter s) := by
  obtain ⟨log, henter⟩ := exists_enter n s
  rw [henter]
  exact ⟨{ h.same with state := rfl }, h.breakpoint, h.branchInput⟩

/-- A line that is executed meanwhile drops nothing, since all that is pending goes back to stored
lines. -/
theorem startImmediate (h : m.Paused n)
    (hcalls : ∀ f ∈ m.program.calls, f.ret.line.isNumbered = true)
    (hloops : ∀ l ∈ m.program.loops, l.resume.line.isNumbered = true) (tokens : List Token) :
    m.Paused (n.startImmediate tokens) := by
  refine Paused.enter ?_ .running
  have hkept : n.program.setImmediate tokens = { n.program with
      immediate := tokens, location := ⟨.immediate, 0⟩, current := tokens } := by
    rw [Program.setImmediate, Program.numberedPart_eq (h.same.calls.symm ▸ hcalls),
      Program.numberedPart_eq (h.same.loops.symm ▸ hloops)]
  rw [hkept]
  refine ⟨{ h.same with }, h.breakpoint, ?_⟩
  rw [← h.branchInput]
  simp [Option.filter_filter]

/-- What is shown, and where, is not needed. -/
theorem aside (h : m.Paused n) (haside : n.Aside m') : m.Paused m' := by
  obtain ⟨output, log, state, index, jumped, rfl⟩ := haside
  exact ⟨{ h.same with state := rfl }, h.breakpoint, h.branchInput⟩

/-- `CONT` brings the run back to where it was. -/
theorem resume (h : m.Paused n) (hm : Reachable o m) (hrunning : m.state = .running)
    (hnumbered : m.program.location.line.isNumbered = true) (hidle : n.state = .idle)
    (hline : Command.read? (Bytes.trimLineEnds line) = some .cont) :
    ∃ log, n.submit line = (none, { n with
      state := .running
      log
      program := { n.program with
        breakpoint := none
        location := m.program.location
        current := m.program.current } }) := by
  have htokens : n.program.tokensOf? m.program.location.line = some m.program.current := by
    have hsynced := hm.sound.synced (.inl hrunning)
    rw [Program.Synced] at hsynced
    cases hplace : m.program.location.line with
    | immediate =>
      rw [hplace] at hnumbered
      cases hnumbered
    | numbered k =>
      rw [hplace] at hsynced
      exact (congrArg (fun lines => lines[k]?) h.same.lines).trans hsynced
  have hcont := runCommand_cont_of_some h.breakpoint htokens hm.sound.program.index
  obtain ⟨log, henter⟩ := exists_enter _ _
  rw [submit_command (by simp [Stopped, hidle]) hline, hcont, henter]
  exact ⟨log, rfl⟩

end Paused

/-! ### Lines in between -/

/-- Lines are executed one after the other that print literals and variables. -/
inductive Asides (b : Machine) : Machine → Prop where
  | nil : Asides b b
  | line {n : Machine} {text : Bytes} {tokens : List Token} {count : Nat} (before : Asides b n)
      (spells : Spells text tokens) (prints : PrintLine tokens)
      (idle : ((n.submit text).2.steps count).state = .idle) :
      Asides b ((n.submit text).2.steps count)

/-- Such a line has no number. -/
theorem submit_printLine {text : Bytes} {tokens : List Token} (hstopped : n.Stopped)
    (hspells : Spells text tokens) (hprint : PrintLine tokens) :
    n.submit text = (none, if tokens.isEmpty then n.enter .idle else n.startImmediate tokens) := by
  have hnumbered : numbered? tokens = none := by
    cases hprint with
    | nil => rfl
    | colon rest => rfl
    | last keyword printed => rcases keyword with rfl | rfl <;> rfl
    | more keyword printed rest => rcases keyword with rfl | rfl <;> rfl
  obtain ⟨hcommand, hread⟩ := hspells
  rw [submit, if_neg hstopped]
  dsimp only
  rw [hcommand, hread]
  dsimp only
  rw [hnumbered]
  dsimp only
  cases tokens.isEmpty with
  | true => rfl
  | false => rfl

/-- Such a line comes to its end. -/
theorem exists_steps_aside {text : Bytes} {tokens : List Token} (hstopped : n.Stopped)
    (hspells : Spells text tokens) (hprint : PrintLine tokens) :
    ∃ count, ((n.submit text).2.steps count).state = .idle := by
  rw [submit_printLine hstopped hspells hprint]
  split
  · exact ⟨0, rfl⟩
  · exact exists_steps_startImmediate n hprint

/-- After all such lines the run can still go on. -/
theorem Paused.asides (h : m.Paused b) (hidle : b.state = .idle)
    (hcalls : ∀ f ∈ m.program.calls, f.ret.line.isNumbered = true)
    (hloops : ∀ l ∈ m.program.loops, l.resume.line.isNumbered = true) (hasides : b.Asides n) :
    m.Paused n ∧ n.state = .idle := by
  induction hasides with
  | nil => exact ⟨h, hidle⟩
  | @line n text tokens count _ hspells hprint hend ih =>
    refine ⟨?_, hend⟩
    rw [submit_printLine (by simp [Stopped, ih.2]) hspells hprint]
    split
    · rw [steps_of_stopped (stopped_enter_idle n)]
      exact ih.1.enter .idle
    · exact (ih.1.startImmediate hcalls hloops tokens).aside (steps_startImmediate n hprint count)

theorem Reachable.asides (h : Reachable o b) (hasides : b.Asides n) : Reachable o n := by
  induction hasides with
  | nil => exact h
  | line _ _ _ _ ih => exact (ih.perform (.submit _)).steps _

/-! ### Going on -/

/-- The machine that goes on is alike every machine that the one that was broken off is alike. -/
theorem Paused.alike {ν : Margin} (h : m.Paused n) (hm : Reachable o m)
    (hrunning : m.state = .running) (hidle : n.state = .idle)
    (hline : Command.read? (Bytes.trimLineEnds line) = some .cont) (halike : Alike ν w m)
    (houtput : μ.output w.output n.output) (hbreakpoint : μ.breakpoint w.program.breakpoint none) :
    (n.submit line).1 = none ∧ Alike μ w (n.submit line).2 := by
  have hnumbered : m.program.location.line.isNumbered = true := by
    rw [halike.place.1]
    exact halike.onStored.1.1
  obtain ⟨log, hresume⟩ := h.resume hm hrunning hnumbered hidle hline
  have hsame : m.Same { n with
      state := .running
      log
      program := { n.program with
        breakpoint := none
        location := m.program.location
        current := m.program.current } } :=
    { h.same with state := hrunning.symm }
  rw [hresume]
  refine ⟨rfl, (halike.same.trans hsame).alike halike.place.1 halike.place.2 ?_ halike.onStored⟩
  exact ⟨houtput, hbreakpoint, halike.branchInput.trans h.branchInput.symm⟩

theorem Reachable.onStored (h : Reachable o m)
    (hnumbered : m.program.location.line.isNumbered = true)
    (hcalls : ∀ f ∈ m.program.calls, f.ret.line.isNumbered = true)
    (hloops : ∀ l ∈ m.program.loops, l.resume.line.isNumbered = true) : m.OnStored := by
  refine ⟨⟨hnumbered, hcalls, hloops⟩, fun name f hf => ?_⟩
  obtain ⟨k, tokens, hline, -⟩ := h.sound.bodies name f hf
  rw [hline]
  rfl

/-- A run that was broken off goes on like the run that was not. -/
theorem alike_continued (h : Reachable o m) (hrunning : m.state = .running)
    (hreply : m.reply = none) (hstored : m.OnStored) (hasides : m.interrupt.Asides n)
    (hline : Command.read? (Bytes.trimLineEnds line) = some .cont) :
    (n.submit line).1 = none ∧
      Alike .any m (n.submit line).2 := by
  obtain ⟨hbroken, hidle⟩ := paused_interrupt hrunning hstored.1.1 hreply
  obtain ⟨hpaused, hend⟩ := hbroken.asides hidle hstored.1.2.1 hstored.1.2.2 hasides
  have hself : Alike .any m m := .refl trivial hstored
  exact hpaused.alike h hrunning hend hline hself trivial trivial

/-! ### A run in pieces -/

end Machine

/-- Whether a break is shown. -/
def Event.isBreak : Event → Bool
  | .broke _ => true
  | _ => false

/-- The second output is the first one with some more breaks. -/
def Margin.breaks : Margin where
  output a b := a.toList.Sublist b.toList ∧
    b.toList.filter (!·.isBreak) = a.toList.filter (!·.isBreak)
  push e := by
    rintro ⟨hsublist, hfilter⟩
    rw [Array.toList_push, Array.toList_push, List.filter_append, List.filter_append, hfilter]
    exact ⟨hsublist.append (List.Sublist.refl _), rfl⟩
  breakpoint _ _ := True
  breakpoint_refl _ := trivial

/-- One more break is shown. -/
theorem Margin.breaks_broke {a b : Array Event} (h : Margin.breaks.output a b) (line : Line) :
    Margin.breaks.output a (b.push (.broke line)) := by
  obtain ⟨hsublist, hfilter⟩ := h
  refine ⟨?_, ?_⟩
  · rw [Array.toList_push]
    exact hsublist.trans (List.sublist_append_left _ _)
  · rw [Array.toList_push, List.filter_append, hfilter]
    exact List.append_nil _

namespace Machine

/-- A run in one piece, and the same run in pieces that are joined by `CONT`. Each piece but the
last has taken as many steps as it may; replies are given to both runs. -/
inductive Pieces (o : Options) : Machine → Machine → Prop where
  | start {m : Machine} {line : Bytes} (reachable : Reachable o m) (stopped : m.Stopped)
      (run : Command.read? (Bytes.trimLineEnds line) = some .run) :
      Pieces o (m.perform (.submit line)) (m.perform (.submit line))
  | reply {w c : Machine} (text : Bytes) (before : Pieces o w c) :
      Pieces o (w.perform (.provideInput text)) (c.perform (.provideInput text))
  | cut {w c b : Machine} {limit count : Nat} {line : Bytes} (before : Pieces o w c)
      (piece : c.runSteps limit none = (.stepLimit, count, b))
      (cont : Command.read? (Bytes.trimLineEnds line) = some .cont) :
      Pieces o (w.steps count) (b.perform (.submit line))
  | last {w c c' : Machine} {limit count : Nat} {ending : RunEnd} (before : Pieces o w c)
      (piece : c.runSteps limit none = (ending, count, c'))
      (ended : ending = .stopped ∨ ∃ fault, ending = .failed fault) :
      Pieces o (w.steps count) c'

/-- A run begins on stored lines, if there are any. -/
theorem run_begins (m : Machine) :
    (m.runCommand .run).2.OnStored ∨ (m.runCommand .run).2.Stopped := by
  by_cases hnone : m.program.lines = ∅
  · have hfirst : m.program.reset.startAtFirst? = none := Program.startAtFirst?_eq_none hnone
    have hreset : (m.record (.command (Command.spelling .run))).program.reset =
        m.program.reset := rfl
    rw [runCommand.eq_def]
    simp only [hreset, hfirst]
    exact .inr (stopped_enter_idle _)
  · obtain ⟨k, tokens, hfirst⟩ := Program.startAtFirst?_eq_some hnone
    rw [runCommand_run_of_some (hfirst m.program.reset rfl)]
    obtain ⟨log, henter⟩ := exists_enter _ _
    rw [henter]
    exact .inl (onStored_begin m (.command (Command.spelling .run)) k tokens)

/-- With the first step the reply has been read. -/
theorem Reachable.reply_steps (h : Reachable o m) {count : Nat} (hpos : 0 < count) :
    (m.steps count).reply = none := by
  induction count generalizing m with
  | zero => exact absurd hpos (Nat.lt_irrefl 0)
  | succ count ih =>
    cases count with
    | zero => exact (h.inputSound.step h).2
    | succ count => exact ih (h.perform .step) (Nat.succ_pos count)

/-- Going on after a piece leads to where the run in one piece is. -/
theorem alike_piece (halike : Alike .breaks w c) (hc : Reachable o c) {limit count : Nat}
    (hpiece : c.runSteps limit none = (.stepLimit, count, b))
    (hline : Command.read? (Bytes.trimLineEnds line) = some .cont) :
    (b.submit line).1 = none ∧ Alike .breaks (w.steps count) (b.submit line).2 := by
  obtain ⟨hrunning, rfl⟩ := runSteps_broken hpiece (.inl rfl)
  have hpos : 0 < count := (runSteps_ended hpiece).2 rfl
  have halike' := halike.steps count
  have hnumbered : (c.steps count).program.location.line.isNumbered = true := by
    rw [halike'.place.1]
    exact halike'.onStored.1.1
  obtain ⟨hpaused, hidle⟩ := paused_interrupt hrunning hnumbered (hc.reply_steps hpos)
  refine hpaused.alike (hc.steps count) hrunning hidle hline halike' ?_ trivial
  obtain ⟨log, hbroken⟩ := interrupt_stored hrunning hnumbered
  rw [hbroken]
  exact Margin.breaks_broke halike'.output _

/-- Both runs can be brought about, and they are alike unless there is nothing to run. -/
theorem Pieces.alike (h : Pieces o w c) :
    Reachable o w ∧ Reachable o c ∧ (Alike .breaks w c ∨ w = c ∧ w.Stopped) := by
  induction h with
  | @start m line hm hstopped hrun =>
    refine ⟨hm.perform (.submit line), hm.perform (.submit line), ?_⟩
    rw [perform, submit_command hstopped hrun]
    rcases run_begins m with hstored | hnothing
    · exact .inl (.refl ⟨List.Sublist.refl _, rfl⟩ hstored)
    · exact .inr ⟨rfl, hnothing⟩
  | @reply w c text _ ih =>
    obtain ⟨hw, hc, halike | ⟨rfl, hstopped⟩⟩ := ih
    · exact ⟨hw.perform _, hc.perform _, .inl (halike.perform (.reply text)).2⟩
    · refine ⟨hw.perform _, hw.perform _, .inr ⟨rfl, ?_⟩⟩
      have hrefused : w.provideInput? text = none := if_neg fun hwaiting => hstopped (.inr hwaiting)
      rw [perform, hrefused]
      exact hstopped
  | @cut w c b limit count line _ hpiece hcont ih =>
    obtain ⟨hw, hc, halike | ⟨rfl, hstopped⟩⟩ := ih
    · have hb : Reachable o b := by
        have hrun := hc.perform (.runSteps limit none)
        rwa [perform, hpiece] at hrun
      exact ⟨hw.steps count, hb.perform (.submit line), .inl (alike_piece halike hc hpiece hcont).2⟩
    · have hrunning := (runSteps_broken hpiece (.inl rfl)).1
      rw [steps_of_stopped hstopped] at hrunning
      exact absurd (.inl hrunning) hstopped
  | @last w c c' limit count ending _ hpiece hended ih =>
    obtain rfl := runSteps_through hpiece hended
    obtain ⟨hw, hc, halike | ⟨rfl, hstopped⟩⟩ := ih
    · exact ⟨hw.steps count, hc.steps count, .inl (halike.steps count)⟩
    · refine ⟨hw.steps count, hw.steps count, .inr ⟨rfl, ?_⟩⟩
      rwa [steps_of_stopped hstopped]

/-! ### Breaks are transparent -/

/-- A run on stored lines that is broken off goes on after `CONT` as if nothing had happened, also
if lines that print literals and variables were executed in between. So a run that is cut into
pieces has shown the same as the run in one piece, but for the breaks, and goes on in the same
way. -/
theorem break_is_transparent :
    (∀ {m b n : Machine} {line : Bytes}, Reachable o m → m.state = .running →
      m.program.location.line.isNumbered = true → m.reply = none →
      (∀ f ∈ m.program.calls, f.ret.line.isNumbered = true) →
      (∀ l ∈ m.program.loops, l.resume.line.isNumbered = true) →
      m.BreaksOff b → b.Asides n → Command.read? (Bytes.trimLineEnds line) = some .cont →
      (n.submit line).1 = none ∧ (n.submit line).2.state = .running ∧
        m.RunsLike (n.submit line).2) ∧
    ∀ {w c : Machine}, Pieces o w c →
      w.output.toList.Sublist c.output.toList ∧
        c.output.toList.filter (!·.isBreak) = w.output.toList.filter (!·.isBreak) ∧
        w.RunsLike c := by
  constructor
  · intro m b n line hm hrunning hnumbered hreply hcalls hloops hbreak hasides hline
    rw [hbreak.eq_interrupt] at hasides
    obtain ⟨hfault, halike⟩ := alike_continued hm hrunning hreply
      (hm.onStored hnumbered hcalls hloops) hasides hline
    have hn : Reachable o n := (hm.perform .interrupt).asides hasides
    exact ⟨hfault, halike.same.state.trans hrunning, halike.runsLike hm (hn.perform (.submit line))⟩
  · intro w c hpieces
    obtain ⟨hw, hc, halike | ⟨rfl, hstopped⟩⟩ := hpieces.alike
    · exact ⟨halike.output.1, halike.output.2, halike.runsLike hw hc⟩
    · exact ⟨.refl _, rfl, hstopped.runsLike⟩

/-- Here a run is broken off after its first step, by the host or because it may take no more. -/
theorem break_is_transparent_restore :
    ∃ m n c, Reachable {} m ∧ m.state = .running ∧ m.program.location = ⟨.numbered 10, 2⟩ ∧
      m.reply = none ∧ m.interrupt.Asides n ∧ (n.submit (utf8 "CONT")).1 = none ∧
      (n.submit (utf8 "CONT")).2.state = .running ∧ m.RunsLike (n.submit (utf8 "CONT")).2 ∧
      Pieces {} m c ∧ m.output.size = 0 ∧ c.output.size = 1 ∧ m.RunsLike c := by
  have hstored : Reachable {} ((new {}).perform (.submit (utf8 "10 RESTORE:RESTORE"))) :=
    .perform _ .start
  have hread : (Token.read (Bytes.trimLineEnds (utf8 "10 RESTORE:RESTORE"))).map numbered? =
      .ok (some (10, [.keyword .RESTORE, .mark .colon, .keyword .RESTORE])) := by
    decide +kernel
  have hrun : Command.read? (Bytes.trimLineEnds (utf8 "RUN")) = some .run := by decide +kernel
  have hcont : Command.read? (Bytes.trimLineEnds (utf8 "CONT")) = some .cont := by decide +kernel
  rw [perform_numbered (by decide +kernel) (by decide +kernel) hread] at hstored
  have hm := hstored.perform (.submit (utf8 "RUN"))
  have hpieces := Pieces.start hstored (by unfold Stopped; decide +kernel) hrun
  rw [perform_run (by decide +kernel) (startAtFirst?_singleton rfl)] at hm hpieces
  have hcut := hpieces.cut (show runSteps _ 1 none = (.stepLimit, 1, _) from
    Prod.ext (by decide +kernel) (Prod.ext (by decide +kernel) rfl)) hcont
  have hprint : PrintLine [.keyword .PRINT, .symbol (utf8 "A")] :=
    .last (.inl rfl) (by rintro u (_ | ⟨_, _ | _⟩); exact .symbol _)
  have hspells : Spells (utf8 "PRINT A") [.keyword .PRINT, .symbol (utf8 "A")] :=
    ⟨by decide +kernel, by decide +kernel⟩
  obtain ⟨m, c, hm, hpieces, hrunning, hplace, hreply, hcalls, hloops, hshown, hshown'⟩ :
      ∃ m c, Reachable {} m ∧ Pieces {} m c ∧ m.state = .running ∧
        m.program.location = ⟨.numbered 10, 2⟩ ∧ m.reply = none ∧ m.program.calls = [] ∧
        m.program.loops = [] ∧ m.output.size = 0 ∧ c.output.size = 1 :=
    ⟨_, _, hm.steps 1, hcut, by decide +kernel, by decide +kernel, by decide +kernel, rfl, rfl,
      by decide +kernel, by decide +kernel⟩
  have hnumbered : m.program.location.line.isNumbered = true := by
    rw [hplace]
    rfl
  have hstopped : m.interrupt.Stopped := by
    simp [Stopped, (paused_interrupt hrunning hnumbered hreply).2]
  obtain ⟨count, hend⟩ := exists_steps_aside hstopped hspells hprint
  have hasides := Asides.nil.line hspells hprint hend
  obtain ⟨hfault, hrunning', hlike⟩ := break_is_transparent.1 hm hrunning hnumbered hreply
    (by simp [hcalls]) (by simp [hloops]) .interrupt hasides hcont
  exact ⟨m, _, c, hm, hrunning, hplace, hreply, hasides, hfault, hrunning', hlike, hpieces, hshown,
    hshown', (break_is_transparent.2 hpieces).2.2⟩

end Machine

end LineBasic
