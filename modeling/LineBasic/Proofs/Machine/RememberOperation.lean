import LineBasic.Proofs.Machine.Places
import LineBasic.Proofs.Machine.Remember

/-!
# What operations remember

Unless it stores a line, an operation leaves only places behind that were remembered before or in
front of which the stored line shows the statement that they belong to. A line that is stored
replaces another one; the functions and the breakpoint on it are forgotten, the calls and loops are
not.

## Main definitions

* `Machine.Stores` — a line that is stored under a number

## Main results

* `Machine.Sound.step_remembered`, `Machine.Sound.interrupt_remembered`,
  `Machine.provideInput?_remembered`, `Machine.submit_remembered` — operations that do not store a
  line
* `Machine.Reachable.induction_remembered` — induction over what adds places and what stores lines
* `Machine.Reachable.maxElements` — the bound on arrays is the one that was set
-/

namespace LineBasic.Machine

variable {o : Options} {m m' m'' : Machine}

@[simp] theorem enter_maxElements (m : Machine) (s : State) :
    (m.enter s).maxElements = m.maxElements := by
  rw [enter]
  split <;> rfl

namespace Remembered

theorem congr (h : m.Remembered m') (hprogram : m''.program = m'.program)
    (hfunctions : m''.functions = m'.functions) (hmaxElements : m''.maxElements = m'.maxElements) :
    m.Remembered m'' :=
  h.trans (.of_sheds (hprogram ▸ .refl _) hfunctions hmaxElements)

theorem enter (h : m.Remembered m') (s : State) : m.Remembered (m'.enter s) :=
  h.congr (enter_program m' s) (enter_functions m' s) (enter_maxElements m' s)

theorem announce (m : Machine) : m.Remembered m.announce := by
  rw [Machine.announce]
  split
  · exact .of_sheds (.refl _) rfl rfl
  · exact .of_sheds (.refl _) rfl rfl

/-- The line after a line is another place, and nothing else. -/
theorem toStatement? (h : m.toStatement? = some m') : m.Remembered m' := by
  rcases toStatement?_eq_some h with ⟨rfl, -⟩ | ⟨line, tokens, rfl⟩
  · exact .refl m'
  · exact .of_sheds ⟨rfl, rfl, List.Subset.refl _, List.Subset.refl _⟩ rfl rfl

/-- A run is broken off at a place of its line. -/
theorem markBreak (hindex : m.program.location.index ≤ m.program.current.length)
    (hsynced : m.program.Synced) : m.Remembered m.markBreak := by
  have hmarked : ∀ loc, m.program.interrupt.breakpoint = some loc →
      m.program.breakpoint = some loc ∨ m.program.OnLine loc := by
    intro loc hloc
    rw [Program.interrupt] at hloc
    split at hloc
    · next hnumbered =>
      cases hloc
      refine (hsynced.shows (P := fun tokens i => i ≤ tokens.length) hindex).elim
        (fun himmediate => ?_) .inr
      rw [himmediate] at hnumbered
      cases hnumbered
    · exact .inl hloc
  have hprogram : m.program.interrupt.lines = m.program.lines ∧
      m.program.interrupt.calls = m.program.calls ∧
      m.program.interrupt.loops = m.program.loops := by
    rw [Program.interrupt]
    split
    · exact ⟨rfl, rfl, rfl⟩
    · exact ⟨rfl, rfl, rfl⟩
  exact
    { maxElements := rfl
      lines := hprogram.1
      breakpoint := hmarked
      calls := fun f hf => .inl (hprogram.2.1 ▸ hf)
      loops := fun l hl => .inl (hprogram.2.2 ▸ hl)
      functions := fun _ _ hf => .inl hf
      heads := fun _ _ hf => .inl hf }

/-- A fault drops what was remembered, but for the functions. -/
theorem abort (m : Machine) (cause : Cause) (line : Line) :
    m.Remembered (m.abort cause line).2 := by
  have hdropped : m.Remembered { m with
      program := m.program.resetStacks.clearBreakpoint, reply := none, branchInput := none } :=
    { maxElements := rfl
      lines := rfl
      breakpoint := nofun
      calls := nofun
      loops := nofun
      functions := fun _ _ hf => .inl hf
      heads := fun _ _ hf => .inl hf }
  exact (hdropped.enter .idle).congr rfl rfl rfl

end Remembered

namespace Sound

theorem step_remembered (h : m.Sound o) : m.Remembered m.step.2 := by
  by_cases hrunning : m.state = .running
  · have hexecute : ∀ {m₁}, m.toStatement? = some m₁ →
        Concludes (fun _ m₂ => m₂.Active o ∧ m.Remembered m₂) (fun _ m₂ => m.Remembered m₂)
          (execute m₁.announce) := by
      intro m₁ hstart
      have hactive := ((h.active hrunning).toStatement? hstart).announce
      have hbefore := (Remembered.toStatement? hstart).trans (.announce m₁)
      exact (remembers_execute o _ hactive).mono (fun _ _ h' => ⟨h'.1, hbefore.trans h'.2⟩)
        fun _ _ h' => hbefore.trans h'
    have hsafe : ∀ {m₁}, m.toStatement? = some m₁ →
        Concludes (fun _ => Active o) (fun e m₂ => Active o m₂ ∧ Stop.Ordinary e)
          (execute m₁.announce) :=
      fun hstart => safe_execute _ ((h.active hrunning).toStatement? hstart).announce
    have hstepped := stepped hrunning
    generalize m.step = r at hstepped ⊢
    cases hstepped with
    | through hstart => exact (Remembered.refl m).enter .idle
    | next hstart hend hnext =>
      have hdone := (hexecute hstart).of_ok hend
      exact hdone.2.trans (.toStatement? hnext)
    | last hstart hend hnext =>
      have hdone := (hexecute hstart).of_ok hend
      exact hdone.2.enter .idle
    | finish hstart hend =>
      have hdone := (hexecute hstart).of_error hend
      exact Remembered.enter hdone .idle
    | stop hstart hend =>
      have hdone := (hexecute hstart).of_error hend
      have hactive := (hsafe hstart).of_error hend
      have hprogram := hactive.1.program
      exact (Remembered.trans hdone (.markBreak hprogram.index hprogram.synced)).enter .idle
    | await hstart hend =>
      have hdone := (hexecute hstart).of_error hend
      exact Remembered.enter hdone .awaitingInput
    | @fault m₁ m₂ cause line hstart hend =>
      have hdone := (hexecute hstart).of_error hend
      exact Remembered.trans hdone (.abort m₂ cause line)
  · rw [step, if_pos hrunning]
    exact .refl m

theorem interrupt_remembered (h : m.Sound o) : m.Remembered m.interrupt := by
  rw [Machine.interrupt]
  split
  · next hbusy =>
    refine Remembered.enter ?_ .idle
    exact (Remembered.markBreak h.program.index (h.synced hbusy)).congr rfl rfl rfl
  · exact .refl m

end Sound

theorem provideInput?_remembered (m : Machine) (text : Bytes) :
    m.Remembered ((m.provideInput? text).getD m) := by
  rw [provideInput?]
  split
  · refine Remembered.enter ?_ .running
    exact .of_sheds (.refl _) rfl rfl
  · exact .refl m

theorem startImmediate_remembered (m : Machine) (tokens : List Token) :
    m.Remembered (m.startImmediate tokens) := by
  refine Remembered.enter ?_ .running
  refine .of_sheds ⟨rfl, rfl, ?_, ?_⟩ rfl rfl
  · exact (Program.numberedPart_sublist Frame.ret m.program.calls).subset
  · exact (Program.numberedPart_sublist Loop.resume m.program.loops).subset

/-- A `RUN` forgets all places. -/
theorem clear_remembered (m : Machine) :
    m.Remembered { m.clear with program := m.program.reset } := by
  have hnone : ∀ (name : Name) (f : Function),
      ({ m.clear with program := m.program.reset } : Machine).functions[name]? ≠ some f := by
    intro name f hf
    rw [show ({ m.clear with program := m.program.reset } : Machine).functions = ∅ from rfl,
      Std.ExtTreeMap.getElem?_empty] at hf
    cases hf
  exact
    { maxElements := rfl
      lines := rfl
      breakpoint := fun _ h => by cases h
      calls := fun _ h => by cases h
      loops := fun _ h => by cases h
      functions := fun name f hf => absurd hf (hnone name f)
      heads := fun name f hf => absurd hf (hnone name f) }

/-- A `CONT` goes to the breakpoint and forgets it. -/
theorem continueRun_remembered (m : Machine) :
    Concludes (fun _ p => m.Remembered { m with program := p })
      (fun _ p => m.Remembered { m with program := p }) (m.program.continueRun) := by
  have hcleared : ∀ location current, m.Remembered { m with
      program := { m.program with breakpoint := none, location, current } } := fun _ _ =>
    { Remembered.refl m with breakpoint := by simp }
  rw [Program.continueRun]
  cases hbreak : m.program.breakpoint with
  | none => exact .refl m
  | some loc =>
    dsimp only
    cases hmove : m.program.clearBreakpoint.moveTo? loc with
    | none => exact hcleared _ _
    | some p =>
      obtain ⟨tokens, rfl⟩ := Program.moveTo?_eq_some hmove
      exact hcleared _ _

theorem runCommand_remembered (m : Machine) (c : Command) : m.Remembered (m.runCommand c).2 := by
  have hrecorded : m.Remembered (m.record (.command c.spelling)) := .of_sheds (.refl _) rfl rfl
  rw [runCommand.eq_def]
  dsimp only
  generalize m.record (.command c.spelling) = m₁ at hrecorded ⊢
  cases c with
  | run =>
    have hcleared := hrecorded.trans (clear_remembered m₁)
    dsimp only
    split
    · next p hfirst =>
      obtain ⟨n, -, hmove⟩ := Option.bind_eq_some_iff.mp hfirst
      obtain ⟨tokens, rfl⟩ := Program.moveTo?_eq_some hmove
      refine Remembered.enter ?_ .running
      exact hcleared.trans (.of_sheds ⟨rfl, rfl, List.Subset.refl _, List.Subset.refl _⟩ rfl rfl)
    · exact hcleared.enter .idle
  | list =>
    dsimp only
    split
    · exact hrecorded.enter .idle
    · refine Remembered.enter ?_ .idle
      exact hrecorded.congr rfl rfl rfl
  | new => exact hrecorded.enter .newRequested
  | cont =>
    have hcontinued := continueRun_remembered m₁
    dsimp only
    cases hend : m₁.program.continueRun with
    | ok a p =>
      rw [hend] at hcontinued
      exact (hrecorded.trans hcontinued).enter .running
    | error c p =>
      rw [hend] at hcontinued
      exact (hrecorded.trans hcontinued).enter .idle
  | trace => exact hrecorded.congr rfl rfl rfl
  | noTrace => exact hrecorded.congr rfl rfl rfl

/-- A line that is submitted is stored under a number. -/
def Stores (line : Bytes) (n : Nat) (tokens : List Token) : Prop :=
  ∃ all, Spells line all ∧ numbered? all = some (n, tokens)

/-- A submitted line is stored, or nothing is remembered but old places. -/
theorem submit_remembered (m : Machine) (line : Bytes) :
    m.Remembered (m.submit line).2 ∨
      ∃ n tokens, m.Stopped ∧ Stores line n tokens ∧
        (m.submit line).2 = (m.storeLine n tokens).enter .idle := by
  have hsubmitted := submitted m line
  generalize m.submit line = r at hsubmitted ⊢
  cases hsubmitted with
  | refused fault hbusy => exact .inl (.refl m)
  | command hstopped hcommand => exact .inl (runCommand_remembered m _)
  | @stored all tokens n hstopped hcommand hread hnumbered =>
    exact .inr ⟨n, tokens, hstopped, ⟨all, ⟨hcommand, hread⟩, hnumbered⟩, rfl⟩
  | executed hstopped hcommand hread hnumbered => exact .inl (startImmediate_remembered m _)
  | dropped fault hstopped => exact .inl ((Remembered.refl m).enter .idle)

/-- Every operation stores a line, or leaves nothing behind but old places and places that show what
they should. -/
theorem Reachable.perform_remembered (h : Reachable o m) (op : Operation) :
    m.Remembered (m.perform op) ∨
      ∃ line n tokens, op = .submit line ∧ m.Stopped ∧ Stores line n tokens ∧
        m.perform op = (m.storeLine n tokens).enter .idle := by
  cases op with
  | submit line =>
    refine (submit_remembered m line).imp_right ?_
    rintro ⟨n, tokens, hstopped, hstores, hstored⟩
    exact ⟨line, n, tokens, rfl, hstopped, hstores, hstored⟩
  | step => exact .inl h.sound.step_remembered
  | provideInput text => exact .inl (provideInput?_remembered m text)
  | interrupt => exact .inl h.sound.interrupt_remembered
  | runSteps limit cancelAfter =>
    refine .inl (runSteps_induction (P := fun m' => m'.Sound o ∧ m.Remembered m') ?_ ?_ limit
      cancelAfter ⟨h.sound, .refl m⟩).2
    · exact fun m' h' => ⟨h'.1.interrupt, h'.2.trans h'.1.interrupt_remembered⟩
    · exact fun m' h' => ⟨h'.1.step_spec.1, h'.2.trans h'.1.step_remembered⟩
  | takeOutput => exact .inl (.of_sheds (.refl _) rfl rfl)

/-- What holds of a new machine, and is kept both by what adds only places that show what they
should and by what stores a line, holds of all machines that a host can bring about. -/
theorem Reachable.induction_remembered {P : Machine → Prop} (hm : Reachable o m)
    (start : P (new o))
    (remembered : ∀ m m', P m → m.Remembered m' → P m')
    (stored : ∀ m n tokens, P m → P ((m.storeLine n tokens).enter .idle)) : P m := by
  induction hm with
  | start => exact start
  | perform op hm ih =>
    rcases hm.perform_remembered op with hkept | ⟨line, n, tokens, -, -, -, hstored⟩
    · exact remembered _ _ ih hkept
    · rw [hstored]
      exact stored _ n tokens ih

/-- The bound on the elements of an array is the one that the machine was started with. -/
theorem Reachable.maxElements (h : Reachable o m) :
    m.maxElements = o.normalize.maxElements := by
  refine h.induction_remembered (P := fun m => m.maxElements = o.normalize.maxElements) rfl ?_ ?_
  · exact fun m m' ih hkept => hkept.maxElements.trans ih
  · intro m n tokens ih
    rw [enter_maxElements]
    exact ih

end LineBasic.Machine
