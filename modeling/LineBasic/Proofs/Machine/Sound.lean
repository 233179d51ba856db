import LineBasic.Proofs.Machine.Walk
import LineBasic.Proofs.Program.Sound

/-!
# What every machine state satisfies

The program of a machine is sound at all times. While a line is executed or an `INPUT` waits, the
tokens being executed are those of the line. A function is kept as the place of its body, and that
place is always there, since editing a line forgets the functions defined on it.

## Main definitions

* `Program.StoresBody` — the body of a function is on a stored line
* `Machine.Sound` — what holds of a machine at all times
* `Machine.Active` — what holds of it while a statement is executed
* `Stop.Ordinary` — the stops that are no inconsistencies of the machine

## Main results

* `Machine.Active.walked` — moving along the line keeps all that holds during a statement
-/

namespace LineBasic

/-- The body of a function is on a stored line, in front of its end. -/
def Program.StoresBody (p : Program) (f : Function) : Prop :=
  ∃ n tokens, f.body.line = .numbered n ∧ p.lines[n]? = some tokens ∧ f.body.index < tokens.length

/-- A stop that is no inconsistency of the machine. -/
def Stop.Ordinary : Stop → Prop
  | .fault c => c.Ordinary
  | .signal _ => True

namespace Machine

/-- What holds of a machine between two operations. -/
structure Sound (o : Options) (m : Machine) : Prop where
  program : m.program.Sound o
  synced : m.state = .running ∨ m.state = .awaitingInput → m.program.Synced
  bodies : ∀ (name : Name) (f : Function), m.functions[name]? = some f → m.program.StoresBody f

/-- What holds of a machine while a statement is executed. -/
structure Active (o : Options) (m : Machine) : Prop where
  program : m.program.Live o m.program.lines
  bodies : ∀ (name : Name) (f : Function), m.functions[name]? = some f → m.program.StoresBody f
  running : m.state = .running

variable {o : Options} {m m' : Machine} {p : Program}

/-- A change of the state leaves the rest of a machine alone. -/
theorem exists_enter (m : Machine) (s : State) :
    ∃ log, m.enter s = { m with state := s, log } := by
  rw [enter]
  split
  · exact ⟨m.log, rfl⟩
  · exact ⟨_, rfl⟩

@[simp] theorem enter_program (m : Machine) (s : State) : (m.enter s).program = m.program := by
  rw [enter]
  split <;> rfl

@[simp] theorem enter_functions (m : Machine) (s : State) :
    (m.enter s).functions = m.functions := by
  rw [enter]
  split <;> rfl

@[simp] theorem enter_state (m : Machine) (s : State) : (m.enter s).state = s := rfl

theorem Sound.active (h : m.Sound o) (hrunning : m.state = .running) : m.Active o :=
  ⟨⟨h.program, h.synced (.inl hrunning), rfl⟩, h.bodies, hrunning⟩

namespace Active

theorem sound (h : m.Active o) : m.Sound o :=
  ⟨h.program.toSound, fun _ => h.program.synced, h.bodies⟩

/-- The program may change, as long as it stays live. -/
theorem withProgram (h : m.Active o) (hp : p.Live o m.program.lines) :
    { m with program := p }.Active o := by
  refine ⟨⟨hp.toSound, hp.synced, rfl⟩, fun name f hf => ?_, h.running⟩
  obtain ⟨n, tokens, hline, htokens, hindex⟩ := h.bodies name f hf
  exact ⟨n, tokens, hline, by rw [hp.stored, htokens], hindex⟩

/-- What is neither the program nor the functions nor the state plays no part. -/
theorem congr (h : m.Active o) (hprogram : m'.program = m.program)
    (hfunctions : m'.functions = m.functions) (hstate : m'.state = m.state) : m'.Active o := by
  refine ⟨?_, ?_, hstate.trans h.running⟩
  · rw [hprogram]
    exact h.program
  · rw [hprogram, hfunctions]
    exact h.bodies

theorem fit (h : m.Active o) : m.Fit m.functions m.callsLeft := by
  refine ⟨rfl, h.program.synced, fun name f hf => ?_, rfl⟩
  obtain ⟨n, tokens, hline, htokens, hindex⟩ := h.bodies name f hf
  rw [hline]
  exact ⟨tokens, htokens, Nat.le_of_lt hindex⟩

/-- Moving along the line keeps all that holds during a statement. -/
theorem walked (h : m.Active o) (hwalked : m.Walked m') : m'.Active o := by
  have hlive : m'.program.Live o m.program.lines := by
    rw [hwalked.program]
    exact h.program.atIndex hwalked.within
  refine (h.withProgram hlive).congr rfl ?_ ?_
  · rw [hwalked.same]
  · rw [hwalked.same]

end Active

end Machine

end LineBasic
