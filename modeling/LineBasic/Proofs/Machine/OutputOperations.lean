import LineBasic.Proofs.Machine.OutputActions

/-!
# Operations do the same whatever was shown before

Every operation on a machine only adds to its output and its log, and does the same whatever stands
there already. So it does not matter when a host takes the output: the machine goes through the same
states, and shows the same.

## Main results

* `Machine.adds_statement` — statements only add to output and log
* `Machine.step_after`, `Machine.submit_after`, `Machine.interrupt_after` and others — operations do
  the same after other output
-/

namespace LineBasic.Machine

/-! ### Statements -/

/-- Every statement only adds to output and log. -/
theorem adds_statement (tokens : Nat) : Adds (statement tokens) :=
  statementRules_adds.statement tokens

theorem adds_execute : Adds execute := by
  refine (adds_modifyProgram _).bind fun _ => .get_bind (fun _ _ _ => rfl) fun m => ?_
  split
  · exact .pure ()
  · refine (adds_modifyProgram _).bind fun _ => .get_bind (fun _ _ _ => rfl) fun m => ?_
    exact (adds_statement _).bind fun _ => adds_endStatement

/-! ### Operations -/

variable (m : Machine) (output : Array Event) (log : Array LogRecord)

theorem announce_after : (m.after output log).announce = m.announce.after output log := by
  have hsame : (m.after output log).tracing = m.tracing ∧
      (m.after output log).program = m.program := ⟨rfl, rfl⟩
  rw [announce, announce, hsame.1, hsame.2]
  split
  · rw [emit_after, record_after]
  · rw [record_after]

/-- A step does the same whatever was shown before. -/
theorem step_after :
    (m.after output log).step = (m.step.1, m.step.2.after output log) := by
  have hstate : (m.after output log).state = m.state := rfl
  by_cases hrunning : m.state = .running
  · cases hstart : m.toStatement? with
    | none =>
      have hstart' : (m.after output log).toStatement? = none := by
        rw [toStatement?_after, hstart]
        rfl
      rw [step_through hrunning hstart, step_through (hstate.trans hrunning) hstart', enter_after]
    | some n =>
      have hstart' : (m.after output log).toStatement? = some (n.after output log) := by
        rw [toStatement?_after, hstart]
        rfl
      rw [step_eq hrunning hstart, step_eq (hstate.trans hrunning) hstart', announce_after,
        adds_execute, endStep_after]
      rfl
  · have hsame : m.step = (none, m) := if_pos hrunning
    rw [hsame]
    exact if_pos hrunning

theorem markBreak_after :
    (m.after output log).markBreak = m.markBreak.after output log :=
  emit_after { m with program := m.program.interrupt } output log _

theorem interrupt_after :
    (m.after output log).interrupt = m.interrupt.after output log := by
  have hstate : (m.after output log).state = m.state := rfl
  rw [interrupt, interrupt, hstate]
  split
  · rw [markBreak_after]
    exact enter_after { m.markBreak with reply := none } output log .idle
  · rfl

theorem provideInput?_after (text : Bytes) :
    (m.after output log).provideInput? text =
      (m.provideInput? text).map (·.after output log) := by
  have hstate : (m.after output log).state = m.state := rfl
  rw [provideInput?, provideInput?, hstate]
  split
  · exact congrArg some
      (enter_after { m with reply := some (Bytes.trimLineEnds text) } output log .running)
  · rfl

theorem runCommand_after (c : Command) :
    (m.after output log).runCommand c =
      ((m.runCommand c).1, (m.runCommand c).2.after output log) := by
  have hrecord := record_after m output log (.command c.spelling)
  rw [runCommand.eq_def, runCommand.eq_def, hrecord]
  generalize m.record (.command c.spelling) = n
  have hprogram : (n.after output log).program = n.program := rfl
  cases c with
  | run =>
    dsimp only
    rw [hprogram]
    cases n.program.reset.startAtFirst? with
    | none =>
      exact congrArg (Prod.mk none)
        (enter_after { n.clear with program := n.program.reset } output log .idle)
    | some program =>
      exact congrArg (Prod.mk none) (enter_after { n.clear with program } output log .running)
  | list =>
    dsimp only
    rw [hprogram]
    split
    · rw [enter_after]
    · rw [emit_after, enter_after]
  | new => exact congrArg (Prod.mk none) (enter_after n output log .newRequested)
  | cont =>
    dsimp only
    rw [hprogram]
    cases Program.continueRun n.program with
    | ok _ program =>
      exact congrArg (Prod.mk none) (enter_after { n with program } output log .running)
    | error cause program =>
      exact congrArg (Prod.mk (some _)) (enter_after { n with program } output log .idle)
  | trace => rfl
  | noTrace => rfl

/-- Submitting a line does the same whatever was shown before. -/
theorem submit_after (line : Bytes) :
    (m.after output log).submit line =
      ((m.submit line).1, (m.submit line).2.after output log) := by
  have hstate : (m.after output log).state = m.state := rfl
  rw [submit, submit, hstate]
  split
  · rfl
  · dsimp only
    cases Command.read? (Bytes.trimLineEnds line) with
    | some c => exact runCommand_after m output log c
    | none =>
      dsimp only
      cases Token.read (Bytes.trimLineEnds line) with
      | error cause => exact congrArg (Prod.mk (some _)) (enter_after m output log .idle)
      | ok tokens =>
        dsimp only
        cases numbered? tokens with
        | some numbered =>
          obtain ⟨n, tokens⟩ := numbered
          exact congrArg (Prod.mk none) (enter_after (m.storeLine n tokens) output log .idle)
        | none =>
          dsimp only
          split
          · exact congrArg (Prod.mk none) (enter_after m output log .idle)
          · exact congrArg (Prod.mk none) (enter_after { m with
              branchInput := m.branchInput.filter (·.line.isNumbered)
              program := m.program.setImmediate tokens } output log .running)

end LineBasic.Machine
