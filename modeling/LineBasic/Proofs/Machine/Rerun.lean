import LineBasic.Proofs.Machine.Alike
import LineBasic.Proofs.Machine.Consistency
import LineBasic.Proofs.Machine.RememberOperation

/-!
# A run starts afresh

`RUN` forgets all that came before it but the stored lines, the random numbers and whether lines are
traced. So two machines that agree in these do the same from there on, whatever else has happened to
them: a host sees the same answers and the same new output, and finds the same values.

There is one exception. Without any stored line there is nothing to run, and the place stays where
it was.

## Main definitions

* `Machine.Agree` — two machines agree in what `RUN` does not forget

## Main results

* `Machine.runCommand_run_of_some`, `Machine.runCommand_run_of_none` — what `RUN` leaves behind
* `Machine.Agree.alike_run` — two machines after `RUN`
* `Machine.run_forgets` — what a host sees of them from then on
-/

namespace LineBasic.Machine

variable {o : Options} {m n : Machine}

/-- `RUN` starts at the lowest line, with nothing but the lines. -/
theorem runCommand_run_of_some {p : Program} (h : m.program.reset.startAtFirst? = some p) :
    m.runCommand .run =
      (none, { (m.record (.command (Command.spelling .run))).clear with
        program := p }.enter .running) := by
  have hreset : (m.record (.command (Command.spelling .run))).program.reset = m.program.reset := rfl
  rw [runCommand.eq_def]
  simp only [hreset, h]

/-- So it starts on a stored line, with nothing that could go back elsewhere. -/
theorem onStored_begin (m : Machine) (r : LogRecord) (k : Nat) (tokens : List Token) :
    { (m.record r).clear with
        program := { m.program.reset with
          location := (Line.numbered k).start
          current := tokens } }.OnStored := by
  refine ⟨⟨rfl, nofun, nofun⟩, fun name f hf => ?_⟩
  rw [show ((m.record r).clear).functions = ∅ from rfl, Std.ExtTreeMap.getElem?_empty] at hf
  cases hf

/-- Without lines, `RUN` only forgets. -/
theorem runCommand_run_of_none (hidle : m.state = .idle) (hnone : m.program.lines = ∅) :
    m.runCommand .run =
      (none, { (m.record (.command (Command.spelling .run))).clear with
        program := m.program.reset }) := by
  have hreset : (m.record (.command (Command.spelling .run))).program.reset = m.program.reset := rfl
  have hfirst : m.program.reset.startAtFirst? = none := Program.startAtFirst?_eq_none hnone
  rw [runCommand.eq_def]
  simp only [hreset, hfirst]
  exact congrArg (Prod.mk none) (enter_self hidle)

/-- Two machines that agree in what `RUN` does not forget. -/
structure Agree (m n : Machine) : Prop where
  lines : n.program.lines = m.program.lines
  random : n.random = m.random
  lastRandom : n.lastRandom = m.lastRandom
  tracing : n.tracing = m.tracing

namespace Agree

/-- After `RUN` has cleared them, such machines have everything in common but the place. -/
theorem same (h : m.Agree n) (hm : Reachable o m) (hn : Reachable o n) (hmidle : m.state = .idle)
    (hnidle : n.state = .idle) (r : LogRecord) (loc loc' : Location) (tokens tokens' : List Token) :
    { (m.record r).clear with
        program := { m.program.reset with location := loc, current := tokens } }.Same
      { (n.record r).clear with
        program := { n.program.reset with location := loc', current := tokens' } } where
  maxElements := hn.maxElements.trans hm.maxElements.symm
  maxCalls := hn.sound.program.maxCalls.trans hm.sound.program.maxCalls.symm
  maxLoops := hn.sound.program.maxLoops.trans hm.sound.program.maxLoops.symm
  state := hnidle.trans hmidle.symm
  scalars := rfl
  arrays := rfl
  functions := rfl
  random := h.random
  lastRandom := h.lastRandom
  tracing := h.tracing
  reply := by
    have hnone := hm.inputSound.reply_eq_none (by simp [Stopped, hmidle])
    have hnone' := hn.inputSound.reply_eq_none (by simp [Stopped, hnidle])
    exact hnone'.trans hnone.symm
  lines := h.lines
  calls := rfl
  loops := rfl
  dataIndex := rfl

/-- If there is something to run, they start at the same place. -/
theorem alike_run (h : m.Agree n) (hm : Reachable o m) (hn : Reachable o n)
    (hmidle : m.state = .idle) (hnidle : n.state = .idle) (hsome : m.program.lines ≠ ∅) :
    (m.runCommand .run).1 = none ∧ (n.runCommand .run).1 = none ∧
      Alike (.since m.output n.output Eq fun _ => rfl) (m.runCommand .run).2
        (n.runCommand .run).2 := by
  obtain ⟨k, tokens, hfirst⟩ := Program.startAtFirst?_eq_some hsome
  rw [runCommand_run_of_some (hfirst m.program.reset rfl),
    runCommand_run_of_some (hfirst n.program.reset h.lines)]
  refine ⟨rfl, rfl, Alike.enter ?_ .running⟩
  refine (h.same hm hn hmidle hnidle _ _ _ _ _).alike rfl rfl ?_ (onStored_begin m _ k tokens)
  exact ⟨⟨#[], Array.append_empty.symm, Array.append_empty.symm⟩, rfl, rfl⟩

end Agree

/-- Two machines that agree in the options, the stored lines, the random numbers and the trace flag
do the same after `RUN`, however different they are otherwise and whatever steps and replies follow.
The answers to all moves are the same, and so is the output since then. Afterwards the machines have
the state, the variables, arrays and functions, the calls and loops and the breakpoint in common,
and what an `INPUT` asks while it waits. They are at the same place if there are lines to run.
Otherwise each of them stays where it was. -/
theorem run_forgets (hm : Reachable o m) (hn : Reachable o n) (hmidle : m.state = .idle)
    (hnidle : n.state = .idle) (h : m.Agree n) {line : Bytes}
    (hline : Command.read? (Bytes.trimLineEnds line) = some .run) (as : List Move) :
    (m.submit line).1 = none ∧ (n.submit line).1 = none ∧
      ((n.submit line).2.moves as).1 = ((m.submit line).2.moves as).1 ∧
      (∃ events, ((m.submit line).2.moves as).2.output = m.output ++ events ∧
        ((n.submit line).2.moves as).2.output = n.output ++ events) ∧
      ((m.submit line).2.moves as).2.Same ((n.submit line).2.moves as).2 ∧
      ((n.submit line).2.moves as).2.program.breakpoint =
        ((m.submit line).2.moves as).2.program.breakpoint ∧
      (((m.submit line).2.moves as).2.state = .awaitingInput →
        ((n.submit line).2.moves as).2.prompt = ((m.submit line).2.moves as).2.prompt) ∧
      (m.program.lines ≠ ∅ → ((n.submit line).2.moves as).2.program.location =
        ((m.submit line).2.moves as).2.program.location) ∧
      (m.program.lines = ∅ →
        ((m.submit line).2.moves as).2.program.location = m.program.location ∧
        ((n.submit line).2.moves as).2.program.location = n.program.location) := by
  have hmrun := submit_command (c := .run) (m := m) (by simp [Stopped, hmidle]) hline
  have hnrun := submit_command (c := .run) (m := n) (by simp [Stopped, hnidle]) hline
  have hmreach := (hm.perform (.submit line)).moves as
  have hnreach := (hn.perform (.submit line)).moves as
  rw [perform, hmrun] at hmreach
  rw [perform, hnrun] at hnreach
  rw [hmrun, hnrun]
  by_cases hsome : m.program.lines = ∅
  · rw [runCommand_run_of_none hmidle hsome, runCommand_run_of_none hnidle (h.lines.trans hsome)]
    have hmstopped : { (m.record (.command (Command.spelling .run))).clear with
        program := m.program.reset }.Stopped := by simp [Stopped, clear, record, hmidle]
    have hnstopped : { (n.record (.command (Command.spelling .run))).clear with
        program := n.program.reset }.Stopped := by simp [Stopped, clear, record, hnidle]
    rw [hmstopped.moves, hnstopped.moves]
    have hsame := h.same hm hn hmidle hnidle (.command (Command.spelling .run))
      m.program.location n.program.location m.program.current n.program.current
    refine ⟨rfl, rfl, rfl, ⟨#[], ?_, ?_⟩, hsame, rfl, ?_, ?_, fun _ => ⟨rfl, rfl⟩⟩
    · exact Array.append_empty.symm
    · exact Array.append_empty.symm
    · exact fun hwaiting => absurd (.inr hwaiting) hmstopped
    · exact fun h => absurd hsome h
  · obtain ⟨hfirst, hfirst', halike⟩ := h.alike_run hm hn hmidle hnidle hsome
    obtain ⟨hreports, hlast⟩ := halike.moves as
    refine ⟨hfirst, hfirst', hreports, hlast.output, hlast.same, hlast.breakpoint.symm, ?_, ?_, ?_⟩
    · exact hlast.prompt hmreach hnreach
    · exact fun _ => hlast.place.1
    · exact fun hnone => absurd hnone hsome

/-- Here the second machine has broken off an earlier run while it waited, and the first has not run
at all. -/
theorem run_forgets_broken :
    ∃ m n, Reachable {} m ∧ Reachable {} n ∧ m.state = .idle ∧ n.state = .idle ∧ m.Agree n ∧
      m.program.breakpoint = none ∧ n.program.breakpoint = some ⟨.numbered 10, 0⟩ ∧
      Command.read? (Bytes.trimLineEnds (utf8 "RUN")) = some .run ∧
      ((n.submit (utf8 "RUN")).2.moves [.step, .reply (utf8 "X"), .step]).1 =
        ((m.submit (utf8 "RUN")).2.moves [.step, .reply (utf8 "X"), .step]).1 := by
  have hm : Reachable {} ((new {}).perform (.submit (utf8 "10 INPUT A$"))) := .perform _ .start
  have hn := ((hm.perform (.submit (utf8 "RUN"))).perform .step).perform .interrupt
  have hread : (Token.read (Bytes.trimLineEnds (utf8 "10 INPUT A$"))).map numbered? =
      .ok (some (10, [.keyword .INPUT, .symbol (utf8 "A$")])) := by
    decide +kernel
  rw [perform_numbered (by decide +kernel) (by decide +kernel) hread] at hm hn
  rw [perform_run (by decide +kernel) (startAtFirst?_singleton rfl)] at hn
  have hline : Command.read? (Bytes.trimLineEnds (utf8 "RUN")) = some .run := by decide +kernel
  refine ⟨_, _, hm, hn, rfl, by decide +kernel, ⟨rfl, rfl, rfl, rfl⟩, rfl, by decide +kernel, hline,
    ?_⟩
  exact (run_forgets hm hn rfl (by decide +kernel) ⟨rfl, rfl, rfl, rfl⟩ hline _).2.2.1

/-- Without lines, `RUN` leaves two machines at different places if only one of them has executed an
immediate line. -/
theorem run_keeps_place :
    ∃ m n, Reachable {} m ∧ Reachable {} n ∧ m.state = .idle ∧ n.state = .idle ∧ m.Agree n ∧
      Command.read? (Bytes.trimLineEnds (utf8 "RUN")) = some .run ∧
      (m.submit (utf8 "RUN")).2.program.location = ⟨.immediate, 0⟩ ∧
      (n.submit (utf8 "RUN")).2.program.location = ⟨.immediate, 1⟩ := by
  have hline : Command.read? (Bytes.trimLineEnds (utf8 "RUN")) = some .run := by decide +kernel
  have hread : Token.read (Bytes.trimLineEnds (utf8 "RESTORE")) = .ok [.keyword .RESTORE] := by
    decide +kernel
  have hn : Reachable {} (((new {}).perform (.submit (utf8 "RESTORE"))).perform .step) :=
    .perform _ (.perform _ .start)
  rw [perform_immediate (by decide +kernel) (by decide +kernel) hread rfl (by simp)] at hn
  refine ⟨_, _, .start, hn, rfl, by decide +kernel, ⟨rfl, rfl, rfl, rfl⟩, hline, ?_, ?_⟩
  · rw [submit_command (by simp [Stopped, new]) hline, runCommand_run_of_none rfl rfl]
    rfl
  · have hidle : (((new {}).startImmediate [.keyword .RESTORE]).perform .step).state = .idle := by
      decide +kernel
    rw [submit_command (by simp [Stopped, hidle]) hline, runCommand_run_of_none hidle rfl]
    rfl

end LineBasic.Machine
