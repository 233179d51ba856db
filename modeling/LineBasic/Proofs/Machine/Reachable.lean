import LineBasic.Machine.Run
import LineBasic.Proofs.Machine.Statement

/-!
# Reachable machines

A host drives a machine by submitting lines, taking steps, giving replies, interrupting it and
taking its output. Whatever it does, and in whatever order, the machine stays sound: each operation
keeps what holds of a machine between two operations, and so does every sequence of them.

A fault drops all pending calls and loops, so it could hide that they had got out of order. It does
not: the machine that a statement leaves behind is sound before they are dropped.

## Main definitions

* `Operation` — what a host can do
* `Machine.perform` — the machine after an operation
* `Machine.Reachable` — the machines that a host can bring about
* `Machine.steps` — the machine after some steps

## Main results

* `Machine.Reachable.induction` — induction over what a host does, one single operation at a time
* `Machine.Sound.step_spec` — a step keeps the machine sound, and finds no inconsistency
* `Machine.Sound.perform` — so does every operation
* `Machine.Reachable.sound` — every reachable machine is sound
* `Machine.reachable_wellFormed` — what this says of the program and its stacks
-/

namespace LineBasic

/-- What a host can do with a machine. -/
inductive Operation where
  /-- Submits a line. -/
  | submit (line : Bytes)
  /-- Takes one step. -/
  | step
  /-- Gives a reply to an `INPUT`. -/
  | provideInput (text : Bytes)
  /-- Breaks the run. -/
  | interrupt
  /-- Takes steps until the run ends, is cancelled, or has taken so many. -/
  | runSteps (limit : Nat) (cancelAfter : Option Nat)
  /-- Takes the output. -/
  | takeOutput
deriving DecidableEq

/-- What steps and interruptions keep, a run keeps. -/
theorem Stepper.run_induction {σ : Type} {P : σ → Prop} {s : Stepper σ}
    (hinterrupt : ∀ x, P x → P (s.interrupt x)) (hstep : ∀ x, P x → P (s.step x).2)
    (limit turns steps : Nat) {x : σ} (hx : P x) : P (s.run limit turns steps x).2.2 := by
  induction turns generalizing steps x with
  | zero => exact hx
  | succ turns ih =>
    have hnext := hstep x hx
    rw [run]
    split
    · exact hx
    · split
      · exact hinterrupt x hx
      · split
        · exact hinterrupt x hx
        · split
          · next fault x' heq =>
            rw [heq] at hnext
            exact hnext
          · next x' heq =>
            rw [heq] at hnext
            exact ih (steps + 1) hnext

/-- A run of at least one turn leaves what was not running from the start, what was interrupted, or
what a step has left. -/
theorem Stepper.run_last {σ : Type} {P Q : σ → Prop} {s : Stepper σ}
    (hidle : ∀ x, P x → s.isRunning x = false → Q x)
    (hinterrupt : ∀ x, P x → P (s.interrupt x) ∧ Q (s.interrupt x))
    (hstep : ∀ x, P x → P (s.step x).2 ∧ Q (s.step x).2) (limit turns steps : Nat) {x : σ}
    (hx : P x) : Q (s.run limit (turns + 1) steps x).2.2 := by
  have hnext := hstep x hx
  rw [run]
  split
  · next hrunning => exact hidle x hx (by simpa using hrunning)
  · split
    · exact (hinterrupt x hx).2
    · split
      · exact (hinterrupt x hx).2
      · split
        · next heq =>
          rw [heq] at hnext
          exact hnext.2
        · next x' heq =>
          -- after the first step every further one leaves the same
          rw [heq] at hnext
          exact (run_induction (P := fun x => P x ∧ Q x) (fun x h => hinterrupt x h.1)
            (fun x h => hstep x h.1) limit turns (steps + 1) hnext).2

namespace Machine

/-- The machine after an operation. A reply that nobody asked for changes nothing. -/
def perform (m : Machine) : Operation → Machine
  | .submit line => (m.submit line).2
  | .step => m.step.2
  | .provideInput text => (m.provideInput? text).getD m
  | .interrupt => m.interrupt
  | .runSteps limit cancelAfter => (m.runSteps limit cancelAfter).2.2
  | .takeOutput => m.takeOutput.2

/-- The machines that a host can bring about, starting with given options. -/
inductive Reachable (o : Options) : Machine → Prop where
  | start : Reachable o (new o)
  | perform {m : Machine} (op : Operation) : Reachable o m → Reachable o (m.perform op)

/-- The machine after some steps. -/
def steps (m : Machine) : (count : Nat) → Machine
  | 0 => m
  | count + 1 => m.step.2.steps count

variable {o : Options} {m m' : Machine}

theorem Reachable.steps (h : Reachable o m) (count : Nat) : Reachable o (m.steps count) := by
  induction count generalizing m with
  | zero => exact h
  | succ count ih => exact ih (h.perform .step)

/-- What single steps and interruptions keep, a bounded run keeps. -/
theorem runSteps_induction {P : Machine → Prop} (hinterrupt : ∀ m, P m → P m.interrupt)
    (hstep : ∀ m, P m → P m.step.2) (limit : Nat) (cancelAfter : Option Nat) (hm : P m) :
    P (m.runSteps limit cancelAfter).2.2 :=
  Stepper.run_induction (P := fun t : Timed => P t.machine) (fun _ ht => hinterrupt _ ht)
    (fun _ ht => hstep _ ht) limit _ 0 hm

/-- What holds of a new machine and is kept by every single operation holds of all machines that a
host can bring about. -/
theorem Reachable.induction {P : Machine → Prop} (hm : Reachable o m) (start : P (new o))
    (submit : ∀ m line, Reachable o m → P m → P (m.submit line).2)
    (step : ∀ m, Reachable o m → P m → P m.step.2)
    (provideInput : ∀ m text, Reachable o m → P m → P ((m.provideInput? text).getD m))
    (interrupt : ∀ m, Reachable o m → P m → P m.interrupt)
    (takeOutput : ∀ m, Reachable o m → P m → P m.takeOutput.2) : P m := by
  induction hm with
  | start => exact start
  | perform op hm ih =>
    cases op with
    | submit line => exact submit _ line hm ih
    | step => exact step _ hm ih
    | provideInput text => exact provideInput _ text hm ih
    | interrupt => exact interrupt _ hm ih
    | runSteps limit cancelAfter =>
      -- each machine on the way can be brought about by single operations
      refine (runSteps_induction (P := fun m => Reachable o m ∧ P m) ?_ ?_ limit cancelAfter
        ⟨hm, ih⟩).2
      · exact fun m h => ⟨h.1.perform .interrupt, interrupt m h.1 h.2⟩
      · exact fun m h => ⟨h.1.perform .step, step m h.1 h.2⟩
    | takeOutput => exact takeOutput _ hm ih

namespace Sound

theorem congr (h : m.Sound o) (hprogram : m'.program = m.program)
    (hfunctions : m'.functions = m.functions)
    (hsynced : m'.state = .running ∨ m'.state = .awaitingInput → m.program.Synced) :
    m'.Sound o := by
  constructor
  · rw [hprogram]
    exact h.program
  · rw [hprogram]
    exact hsynced
  · rw [hprogram, hfunctions]
    exact h.bodies

theorem enter (h : m.Sound o) {s : State}
    (hs : s = .running ∨ s = .awaitingInput → m.program.Synced) : (m.enter s).Sound o :=
  h.congr (enter_program m s) (enter_functions m s) hs

theorem idle (h : m.Sound o) : (m.enter .idle).Sound o :=
  h.enter (by simp)

/-- The program may change, as long as the lines stay. -/
theorem withProgram (h : m.Sound o) {p : Program} (hp : p.Sound o)
    (hlines : p.lines = m.program.lines)
    (hsynced : m.state = .running ∨ m.state = .awaitingInput → p.Synced) :
    { m with program := p }.Sound o := by
  refine ⟨hp, hsynced, fun name f hf => ?_⟩
  obtain ⟨n, tokens, hline, htokens, hindex⟩ := h.bodies name f hf
  exact ⟨n, tokens, hline, by rw [hlines, htokens], hindex⟩

end Sound

/-! ### Steps -/

theorem Active.toStatement? (h : m.Active o) (hm : m.toStatement? = some m') : m'.Active o := by
  rw [Machine.toStatement?] at hm
  split at hm
  · obtain ⟨p, hadvance, rfl⟩ := Option.map_eq_some_iff.mp hm
    rw [Program.advance?] at hadvance
    split at hadvance
    · cases hadvance
    · obtain ⟨n, -, hmove⟩ := Option.bind_eq_some_iff.mp hadvance
      exact h.withProgram (h.program.moveTo? hmove)
  · cases hm
    exact h

theorem Active.announce (h : m.Active o) : m.announce.Active o := by
  have hsame : m.announce.program = m.program ∧ m.announce.functions = m.functions ∧
      m.announce.state = m.state := by
    rw [Machine.announce]
    split
    · exact ⟨rfl, rfl, rfl⟩
    · exact ⟨rfl, rfl, rfl⟩
  exact h.congr hsame.1 hsame.2.1 hsame.2.2

namespace Sound

/-- Remembering where a run was broken leaves the rest of the machine alone. -/
theorem markBreak (h : m.Sound o) : m.markBreak.Sound o := by
  have hsame : m.program.interrupt.lines = m.program.lines ∧
      (m.program.Synced → m.program.interrupt.Synced) := by
    rw [Program.interrupt]
    split
    · exact ⟨rfl, id⟩
    · exact ⟨rfl, id⟩
  have hmarked := h.withProgram h.program.interrupt hsame.1 fun hs => hsame.2 (h.synced hs)
  exact hmarked.congr rfl rfl hmarked.synced

/-- A fault ends the run with empty stacks. -/
theorem abort (h : m.Sound o) (cause : Cause) (line : Line) : (m.abort cause line).2.Sound o := by
  have hreset := h.withProgram (p := m.program.resetStacks.clearBreakpoint)
    (h.program.resetStacks.withBreakpoint none _) rfl h.synced
  exact hreset.congr (enter_program _ _) (enter_functions _ _) (by simp [Machine.abort, record])

/-- What a step does to a sound machine: the machine is sound again, and if the step fails, then not
for an inconsistency. -/
theorem step_spec (h : m.Sound o) :
    m.step.2.Sound o ∧ ∀ fault ∈ m.step.1, fault.cause.Ordinary := by
  rw [Machine.step]
  split
  · exact ⟨h, by simp⟩
  · next hrunning =>
    have hactive := h.active (by simpa using hrunning)
    split
    · exact ⟨h.idle, by simp⟩
    · next m₁ hnext =>
      have hend := safe_execute m₁.announce (hactive.toStatement? hnext).announce
      dsimp only
      -- the statement leaves a sound machine in all its ends, and what follows keeps it sound
      split
      · next m₂ heq =>
        rw [heq] at hend
        have hactive₂ : m₂.Active o := hend
        split
        · next m₃ hlast => exact ⟨(hactive₂.toStatement? hlast).sound, by simp⟩
        · exact ⟨hactive₂.sound.idle, by simp⟩
      · next m₂ heq =>
        rw [heq] at hend
        exact ⟨hend.1.sound.idle, by simp⟩
      · next m₂ heq =>
        rw [heq] at hend
        exact ⟨hend.1.sound.markBreak.idle, by simp⟩
      · next m₂ heq =>
        rw [heq] at hend
        exact ⟨hend.1.sound.enter fun _ => hend.1.program.synced, by simp⟩
      · next cause m₂ heq =>
        rw [heq] at hend
        refine ⟨hend.1.sound.abort cause _, ?_⟩
        rintro fault ⟨⟩
        exact hend.2

end Sound

/-! ### Submitting a line -/

/-- A machine without functions is sound if its program is. -/
theorem sound_of_program {p : Program} (hp : p.Sound o) (hprogram : m.program = p)
    (hfunctions : m.functions = ∅)
    (hsynced : m.state = .running ∨ m.state = .awaitingInput → p.Synced) : m.Sound o := by
  constructor
  · rw [hprogram]
    exact hp
  · rw [hprogram]
    exact hsynced
  · intro name f hf
    rw [hfunctions, Std.ExtTreeMap.getElem?_empty] at hf
    cases hf

/-- A function that is left when a line is stored was there before, and is not on the line. -/
theorem functions_storeLine (n : Nat) (tokens : List Token) {name : Name} {f : Function}
    (h : (m.storeLine n tokens).functions[name]? = some f) :
    m.functions[name]? = some f ∧ f.body.line ≠ .numbered n := by
  have hfilter : (m.functions.filter fun _ f => f.body.line ≠ .numbered n)[name]? = some f := h
  rw [Std.ExtTreeMap.getElem?_filter'] at hfilter
  obtain ⟨hold, hother⟩ := Option.filter_eq_some_iff.mp hfilter
  exact ⟨hold, of_decide_eq_true hother⟩

namespace Sound

/-- Moving to a line, in order to execute it. -/
theorem run (h : m.Sound o) {p p' : Program} {loc : Location} (hp : p.Sound o)
    (hlines : p.lines = m.program.lines) (hmove : p.moveTo? loc = some p') :
    ({ m with program := p' }.enter .running).Sound o := by
  have hlines' : p'.lines = p.lines := by
    obtain ⟨tokens, -, rfl⟩ := Option.map_eq_some_iff.mp hmove
    rfl
  exact (h.withProgram (hp.moveTo? hmove) (hlines'.trans hlines)
    fun _ => Program.synced_of_moveTo? hmove).enter fun _ => Program.synced_of_moveTo? hmove

/-- Commands are only given between two runs. -/
theorem runCommand (h : m.Sound o) (hstopped : ¬(m.state = .running ∨ m.state = .awaitingInput))
    (c : Command) : (m.runCommand c).2.Sound o := by
  have hrecorded : (m.record (.command c.spelling)).Sound o := h.congr rfl rfl h.synced
  have hstopped' : ¬((m.record (.command c.spelling)).state = .running ∨
    (m.record (.command c.spelling)).state = .awaitingInput) := hstopped
  rw [Machine.runCommand.eq_def]
  dsimp only
  generalize m.record (.command c.spelling) = m at hrecorded hstopped' ⊢
  have hsynced : ∀ {p : Program}, m.state = .running ∨ m.state = .awaitingInput → p.Synced :=
    fun hs => absurd hs hstopped'
  cases c with
  | run =>
    have hclear : { m.clear with program := m.program.reset }.Sound o :=
      sound_of_program hrecorded.program.reset rfl rfl hsynced
    dsimp only
    split
    · next p hfirst =>
      obtain ⟨n, -, hmove⟩ := Option.bind_eq_some_iff.mp hfirst
      exact hclear.run hclear.program rfl hmove
    · exact hclear.idle
  | list =>
    dsimp only
    split
    · exact hrecorded.idle
    · have hshown : (m.emit (.print m.program.listing)).Sound o := hrecorded.congr rfl rfl hsynced
      exact hshown.idle
  -- what `NEW` clears is left to the host
  | new => exact hrecorded.enter (by simp)
  | cont =>
    have hcleared := hrecorded.withProgram (p := m.program.clearBreakpoint)
      (hrecorded.program.withBreakpoint none _) rfl hsynced
    dsimp only
    cases hbreak : m.program.breakpoint with
    | none =>
      simp only [Program.continueRun, hbreak]
      exact hrecorded.idle
    | some loc =>
      cases hmove : m.program.clearBreakpoint.moveTo? loc with
      | none =>
        simp only [Program.continueRun, hbreak, hmove]
        exact hcleared.idle
      | some p =>
        simp only [Program.continueRun, hbreak, hmove]
        exact hcleared.run hcleared.program rfl hmove
  | trace => exact hrecorded.congr rfl rfl hsynced
  | noTrace => exact hrecorded.congr rfl rfl hsynced

/-- Storing a line forgets the functions on it, so that those left have their bodies. -/
theorem storeLine (h : m.Sound o) (n : Nat) (tokens : List Token) :
    ((m.storeLine n tokens).enter .idle).Sound o := by
  have hstored : ({ m.storeLine n tokens with state := .idle } : Machine).Sound o := by
    refine ⟨h.program.store n tokens, nofun, fun name f hf => ?_⟩
    -- a function that was kept has its body on another line, which is stored as before
    obtain ⟨hold, hother⟩ := functions_storeLine n tokens hf
    obtain ⟨k, ts, hline, hts, hindex⟩ := h.bodies name f hold
    have hk : n ≠ k := by
      rintro rfl
      exact hother hline
    exact ⟨k, ts, hline, (Program.getElem?_store_of_ne _ _ hk).trans hts, hindex⟩
  exact hstored.congr (enter_program _ _) (enter_functions _ _) nofun

theorem startImmediate (h : m.Sound o) (tokens : List Token) :
    (m.startImmediate tokens).Sound o := by
  have hset := h.withProgram (h.program.setImmediate tokens) rfl fun _ => rfl
  have hkept : { m with
      branchInput := m.branchInput.filter (·.line.isNumbered)
      program := m.program.setImmediate tokens }.Sound o := hset.congr rfl rfl fun _ => rfl
  exact hkept.enter fun _ => rfl

theorem submit (h : m.Sound o) (line : Bytes) : (m.submit line).2.Sound o := by
  rw [Machine.submit]
  split
  · exact h
  · next hstopped =>
    dsimp only
    split
    · exact h.runCommand hstopped _
    · split
      · exact h.idle
      · split
        · exact h.storeLine _ _
        · split
          · exact h.idle
          · exact h.startImmediate _

/-! ### Every operation -/

theorem interrupt (h : m.Sound o) : m.interrupt.Sound o := by
  rw [Machine.interrupt]
  split
  · have hmarked := h.markBreak
    have hdropped : { m.markBreak with reply := none }.Sound o :=
      hmarked.congr rfl rfl hmarked.synced
    exact hdropped.idle
  · exact h

theorem provideInput? (h : m.Sound o) {text : Bytes} (hm : m.provideInput? text = some m') :
    m'.Sound o := by
  rw [Machine.provideInput?] at hm
  split at hm
  · next hwaiting =>
    cases hm
    -- a machine that waits is on its line, so it may go on
    have hgiven : { m with reply := some (Bytes.trimLineEnds text) }.Sound o :=
      h.congr rfl rfl h.synced
    exact hgiven.enter fun _ => h.synced (.inr hwaiting)
  · cases hm

theorem runSteps (h : m.Sound o) (limit : Nat) (cancelAfter : Option Nat) :
    (m.runSteps limit cancelAfter).2.2.Sound o :=
  Stepper.run_induction (P := fun t : Timed => t.machine.Sound o) (fun _ ht => ht.interrupt)
    (fun _ ht => ht.step_spec.1) limit _ 0 h

/-- Whatever a host does, a sound machine stays sound. -/
theorem perform (h : m.Sound o) (op : Operation) : (m.perform op).Sound o := by
  cases op with
  | submit line => exact h.submit line
  | step => exact h.step_spec.1
  | provideInput text =>
    rw [Machine.perform]
    cases hm : m.provideInput? text with
    | none => exact h
    | some m' => exact h.provideInput? hm
  | interrupt => exact h.interrupt
  | runSteps limit cancelAfter => exact h.runSteps limit cancelAfter
  | takeOutput => exact h.congr rfl rfl h.synced

end Sound

theorem sound_new (o : Options) : (new o).Sound o := by
  refine sound_of_program (p := (new o).program) ?_ rfl rfl nofun
  exact
    { maxCalls := rfl
      maxLoops := rfl
      lines := fun n tokens hn => by simp [new] at hn
      index := Nat.le_refl _
      calls := Nat.zero_le _
      loops := Nat.zero_le _
      loopNames := List.nodup_nil
      numeric := nofun
      gosubs := nofun
      returns := nofun
      resumes := nofun }

theorem Reachable.sound (h : Reachable o m) : m.Sound o := by
  induction h with
  | start => exact sound_new o
  | perform op _ ih => exact ih.perform op

/-- A bound that is not positive was replaced by a positive one. -/
theorem normalize_pos (o : Options) : 0 < o.normalize.maxCalls ∧ 0 < o.normalize.maxLoops := by
  simp only [Options.normalize, Options.bound]
  constructor <;> split <;> omega

/-- In every machine that a host can bring about, no stored line is empty and the location is on its
line; while a line is executed or an `INPUT` waits, the current tokens are those stored for the
line; calls and loops are within their bounds, loops are over different numeric variables, no
function is pending between steps, and what points into the immediate line points to one of its
places. -/
theorem reachable_wellFormed (h : Reachable o m) :
    (∀ (n : Nat) (tokens : List Token), m.program.lines[n]? = some tokens → tokens ≠ []) ∧
      m.program.location.index ≤ m.program.current.length ∧
      (m.state = .running ∨ m.state = .awaitingInput →
        m.program.tokensOf? m.program.location.line = some m.program.current) ∧
      (m.program.calls.length : Int) ≤ o.normalize.maxCalls ∧
      (m.program.loops.length : Int) ≤ o.normalize.maxLoops ∧
      (m.program.loops.map Loop.name).Nodup ∧
      (∀ l ∈ m.program.loops, l.name.isString = false) ∧
      (∀ f ∈ m.program.calls, f.isFunction = false) ∧
      (∀ f ∈ m.program.calls, f.ret.line = .immediate →
        f.ret.index ≤ m.program.immediate.length) ∧
      ∀ l ∈ m.program.loops, l.resume.line = .immediate →
        l.resume.index ≤ m.program.immediate.length := by
  have hsound := h.sound
  have hp := hsound.program
  have hpos := normalize_pos o
  have hcalls := hp.calls
  have hloops := hp.loops
  rw [hp.maxCalls] at hcalls
  rw [hp.maxLoops] at hloops
  refine ⟨hp.lines, hp.index, hsound.synced, ?_, ?_, hp.loopNames, hp.numeric, hp.gosubs,
    hp.returns, hp.resumes⟩
  · omega
  · omega

/-- Here an `INPUT` of an immediate line waits, after a line was stored and before a reply. -/
theorem reachable_waiting :
    ∃ m, Reachable {} m ∧ m.state = .awaitingInput ∧ m.program.hasLine 10 = true ∧
      (∀ (n : Nat) (tokens : List Token), m.program.lines[n]? = some tokens → tokens ≠ []) ∧
      m.program.location.index ≤ m.program.current.length ∧
      m.program.tokensOf? m.program.location.line = some m.program.current ∧
      (m.program.calls.length : Int) ≤ 256 := by
  have h : Reachable {} ((((new {}).perform (.submit (utf8 "10 PRINT A"))).perform
      (.submit (utf8 "RESTORE:INPUT A$"))).perform (.runSteps 9 none)) :=
    .perform _ (.perform _ (.perform _ .start))
  obtain ⟨hlines, hindex, hsynced, hcalls, -⟩ := reachable_wellFormed h
  have hstate : ((((new {}).perform (.submit (utf8 "10 PRINT A"))).perform
      (.submit (utf8 "RESTORE:INPUT A$"))).perform (.runSteps 9 none)).state =
      .awaitingInput := by decide +kernel
  exact ⟨_, h, hstate, by decide +kernel, hlines, hindex, hsynced (.inr hstate), hcalls⟩

end Machine

end LineBasic
