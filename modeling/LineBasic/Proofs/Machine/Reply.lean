import LineBasic.Proofs.Machine.Advance

/-!
# Replies

An `INPUT` has no continuation: it goes back to its keyword, and when a reply is there it is
executed again. So a reply must be taken by the very statement that asked for it. It is: the machine
waits at the keyword of the `INPUT` that a step has come down to, a reply is only accepted while it
waits, and until the next step nothing but the end of the run can happen to the reply or to the
place.

## Main definitions

* `Machine.InputSound` — what holds of the place and the reply of an `INPUT`

## Main results

* `Machine.Reachable.inputSound` — it holds of every machine that a host can bring about
* `Machine.reachable_reply` — a reply reaches the `INPUT` that asked for it
-/

namespace LineBasic.Machine

variable {o : Options} {m m' m₁ m₂ n s : Machine}

/-- What holds of a machine that waits or has a reply at hand. -/
structure InputSound (o : Options) (m : Machine) : Prop where
  waiting : m.state = .awaitingInput → ∃ m₀ n s, Reachable o m₀ ∧ m₀.state = .running ∧
    m₀.step.2.state = .awaitingInput ∧ m₀.upcoming? = some n ∧ n.LeadsTo s ∧
    s.Suspended m₀.step.2 ∧ s.Suspended m
  pending : ∀ r, m.reply = some r →
    m.state = .running ∧ m.program.peek? = some (.keyword .INPUT)
  settled : m.state = .awaitingInput ∨ m.reply ≠ none →
    m.program.jumped = false ∧ m.prompt = askedWith m.past.program.peek?

namespace InputSound

/-- Nothing is said of a machine that neither waits nor has a reply at hand. -/
theorem of_quiet (hstate : m.state ≠ .awaitingInput) (hreply : m.reply = none) :
    m.InputSound o where
  waiting h := absurd h hstate
  pending r hr := by
    rw [hreply] at hr
    cases hr
  settled h := absurd h (by simp [hstate, hreply])

end InputSound

/-! ### Steps -/

namespace InputSound

/-- The step of a machine with a reply executes the `INPUT` at the location. -/
theorem execute_reply (h : m.InputSound o) (hm : m.Sound o) {r : Bytes}
    (hreply : m.reply = some r) (hstart : m.toStatement? = some m₁) :
    m₁ = m ∧ m.announce.atStatement = m.announce ∧
      Concludes (fun _ m' => m.announce.Accepted m')
        (fun e m' => e.IsFault ∨ e = .signal .awaitInput ∧ m.announce.Suspended m' ∧
          m'.branchInput = m.announce.branchInput) (execute m.announce) := by
  obtain ⟨hrunning, hkeyword⟩ := h.pending r hreply
  have hjumped := (h.settled (.inr (by simp [hreply]))).1
  rw [toStatement?_eq hkeyword] at hstart
  rw [← announce_program m] at hkeyword hjumped
  rw [← announce_reply m] at hreply
  exact ⟨(Option.some.inj hstart).symm, atStatement_eq hkeyword nofun hjumped,
    concludes_execute_reply (hm.active hrunning).announce hkeyword hjumped hreply⟩

/-- Whether or not there was a reply, there is none after a statement. -/
theorem concludes_execute (h : m.InputSound o) (hm : m.Sound o) (hrunning : m.state = .running)
    (hstart : m.toStatement? = some m₁) :
    Concludes (fun _ m' => m'.reply = none ∧ m'.state = .running) m₁.announce.atStatement.Halts
      (execute m₁.announce) := by
  have hactive := ((hm.active hrunning).toStatement? hstart).announce
  have hsafe := safe_execute m₁.announce hactive
  have hend : Concludes (fun _ m' => m'.reply = none) m₁.announce.atStatement.Halts
      (execute m₁.announce) := by
    cases hreply : m.reply with
    | none =>
      have hnone : m₁.announce.reply = none := by
        obtain ⟨p, rfl⟩ := exists_of_toStatement? hstart
        rw [announce_reply]
        exact hreply
      exact (Machine.concludes_execute hactive hnone).mono (fun _ _ h => h.reply) fun _ _ h => h
    | some r =>
      obtain ⟨rfl, hplace, hend⟩ := h.execute_reply hm hreply hstart
      refine hend.mono (fun _ _ h => h.reply) ?_
      rintro e m' (he | ⟨rfl, hsuspended, hmarked⟩)
      · exact .of_isFault he m'
      · rw [hplace]
        exact ⟨m₁.announce, .here _, hsuspended, .inl ⟨rfl, hmarked⟩⟩
  cases hresult : execute m₁.announce with
  | ok _ m₂ =>
    rw [hresult] at hsafe hend
    have hactive₂ : m₂.Active o := hsafe
    exact ⟨hend, hactive₂.running⟩
  | error e m₂ =>
    rw [hresult] at hend
    exact hend

/-- A machine that has just begun to wait is back at the `INPUT` that its step has come down to, and
no statement in front of the `INPUT` has jumped. -/
theorem of_await (hm : Reachable o m) (hrunning : m.state = .running)
    (hstart : m.toStatement? = some m₁) (hleads : m₁.announce.atStatement.LeadsTo s)
    (hsuspended : s.Suspended m₂) (hstep : m.step.2 = m₂.enter .awaitingInput) :
    (m₂.enter .awaitingInput).InputSound o ∧ (m₂.enter .awaitingInput).reply = none := by
  have hactive := active_atStatement ((hm.sound.active hrunning).toStatement? hstart).announce
  have hwaits : s.Suspended (m₂.enter .awaitingInput) :=
    ⟨hsuspended.keyword, by simpa using hsuspended.program, by simpa using hsuspended.reply,
      by simpa using hsuspended.prompt⟩
  have hupcoming : m.upcoming? = some m₁.announce.atStatement := by
    rw [upcoming?, hstart]
    rfl
  refine ⟨⟨fun _ => ?_, fun r hr => ?_, fun _ => ?_⟩, hwaits.reply⟩
  · refine ⟨m, _, s, hm, hrunning, ?_, hupcoming, hleads, ?_, hwaits⟩
    · rw [hstep]
      exact enter_state _ _
    · rw [hstep]
      exact hwaits
  · cases hwaits.reply.symm.trans hr
  · rw [past, hwaits.program, hwaits.prompt]
    refine ⟨?_, rfl⟩
    rw [(hleads.walked hactive).program]
    rfl

/-- After a step there is no reply at hand, and the machine waits only if the step has come down to
an `INPUT`. -/
theorem step (h : m.InputSound o) (hm : Reachable o m) :
    m.step.2.InputSound o ∧ m.step.2.reply = none := by
  have hquiet : ∀ {m' : Machine}, m'.state ≠ .awaitingInput → m'.reply = none →
      m'.InputSound o ∧ m'.reply = none := fun hstate hreply => ⟨.of_quiet hstate hreply, hreply⟩
  by_cases hrunning : m.state = .running
  · have hstepped := stepped hrunning
    have hexecute : ∀ {m₁}, m.toStatement? = some m₁ →
        Concludes (fun _ m' => m'.reply = none ∧ m'.state = .running)
          m₁.announce.atStatement.Halts (execute m₁.announce) :=
      h.concludes_execute hm.sound hrunning
    generalize hresult : m.step = r at hstepped ⊢
    cases hstepped with
    | through hstart =>
      refine hquiet (by simp) ?_
      -- a reply would be for an `INPUT` on the line
      cases hreply : m.reply with
      | none => simpa using hreply
      | some r =>
        rw [toStatement?_eq (h.pending r hreply).2] at hstart
        cases hstart
    | next hstart hend hnext =>
      have hdone := (hexecute hstart).of_ok hend
      obtain ⟨p, rfl⟩ := exists_of_toStatement? hnext
      exact hquiet (by simp [hdone.2]) hdone.1
    | last hstart hend hnext =>
      have hdone := (hexecute hstart).of_ok hend
      exact hquiet (by simp) (by simpa using hdone.1)
    | finish hstart hend =>
      have hdone := (hexecute hstart).of_error hend
      obtain ⟨s, -, -, hreply, -⟩ := hdone
      exact hquiet (by simp) (by simpa using hreply)
    | stop hstart hend =>
      have hdone := (hexecute hstart).of_error hend
      obtain ⟨s, -, -, -, hreply, -⟩ := hdone
      exact hquiet (by simp) (by simpa using hreply)
    | await hstart hend =>
      have hdone := (hexecute hstart).of_error hend
      obtain ⟨s, hleads, hsuspended, -⟩ := hdone
      exact of_await hm hrunning hstart hleads hsuspended (congrArg Prod.snd hresult)
    | fault line hstart hend => exact hquiet (by simp) (by simp)
  · rw [Machine.step, if_pos hrunning]
    refine ⟨h, ?_⟩
    cases hreply : m.reply with
    | none => rfl
    | some r => exact absurd (h.pending r hreply).1 hrunning

/-! ### The other operations -/

/-- Output and log play no part. -/
theorem congr (h : m.InputSound o) (hprogram : m'.program = m.program)
    (hstate : m'.state = m.state) (hreply : m'.reply = m.reply) (hprompt : m'.prompt = m.prompt) :
    m'.InputSound o where
  waiting hwaiting := by
    rw [hstate] at hwaiting
    obtain ⟨m₀, n, s, hm₀, hrunning, hwaits, hn, hs, hthen, hsuspended⟩ := h.waiting hwaiting
    exact ⟨m₀, n, s, hm₀, hrunning, hwaits, hn, hs, hthen, hsuspended.keyword,
      hprogram.trans hsuspended.program, hreply.trans hsuspended.reply,
      hprompt.trans hsuspended.prompt⟩
  pending r hr := by
    rw [hstate, hprogram]
    exact h.pending r (hreply.symm.trans hr)
  settled hs := by
    rw [hstate, hreply] at hs
    rw [past, hprogram, hprompt]
    exact h.settled hs

theorem reply_eq_none (h : m.InputSound o) (hstopped : m.Stopped) : m.reply = none := by
  cases hreply : m.reply with
  | none => rfl
  | some r => exact absurd (.inl (h.pending r hreply).1) hstopped

/-- Lines are only taken when there is neither a run nor a reply, and none of them brings a reply.
-/
theorem submit (h : m.InputSound o) (line : Bytes) :
    (m.submit line).2.InputSound o ∧ (m.Stopped → (m.submit line).2.reply = none) := by
  have hquiet : ∀ {m' : Machine}, m'.state ≠ .awaitingInput → m'.reply = none →
      m'.InputSound o ∧ (m.Stopped → m'.reply = none) :=
    fun hstate hreply => ⟨.of_quiet hstate hreply, fun _ => hreply⟩
  have hsubmitted := submitted m line
  generalize m.submit line = r at hsubmitted ⊢
  cases hsubmitted with
  | refused fault hbusy => exact ⟨h, fun hstopped => absurd hstopped hbusy⟩
  | @command c hstopped hcommand =>
    have hreply := h.reply_eq_none hstopped
    cases commanded hstopped c with
    | started _ hstate hsame => exact hquiet (by simp [hstate]) (hsame.trans hreply)
    | cleared _ hstate hsame => exact hquiet (fun h => hstate (.inr h)) (hsame.trans hreply)
    | continued _ hstate hsame => exact hquiet (by simp [hstate]) (hsame.trans hreply)
    | idle _ hstate hsame => exact hquiet (fun h => hstate (.inr h)) (hsame.trans hreply)
  | stored hstopped =>
    refine hquiet (by simp) ?_
    rw [enter_reply]
    exact h.reply_eq_none hstopped
  | executed hstopped =>
    exact hquiet (by simp [startImmediate])
      (by simpa [startImmediate] using h.reply_eq_none hstopped)
  | dropped fault hstopped =>
    exact hquiet (by simp) (by simpa using h.reply_eq_none hstopped)

/-- A reply is for the `INPUT` that the machine waits at. -/
theorem provideInput (h : m.InputSound o) (text : Bytes) :
    ((m.provideInput? text).getD m).InputSound o := by
  rw [provideInput?]
  split
  · next hwaiting =>
    obtain ⟨m₀, n, s, -, -, -, -, -, -, hsuspended⟩ := h.waiting hwaiting
    rw [Option.getD_some]
    refine ⟨by simp, fun r _ => ⟨rfl, ?_⟩, fun _ => ?_⟩
    · rw [enter_program]
      exact hsuspended.program ▸ hsuspended.keyword
    · rw [enter_prompt, past, enter_program]
      exact h.settled (.inl hwaiting)
  · exact h

theorem interrupt (h : m.InputSound o) : m.interrupt.InputSound o := by
  rw [Machine.interrupt]
  split
  · exact .of_quiet (by simp) (by simp)
  · exact h

end InputSound

/-- Whatever a host does, a reply and the place that it is for belong together. -/
theorem Reachable.inputSound (h : Reachable o m) : m.InputSound o :=
  h.induction (.of_quiet nofun rfl) (fun _ line _ hm => (hm.submit line).1)
    (fun _ hreachable hm => (hm.step hreachable).1) (fun _ text _ hm => hm.provideInput text)
    (fun _ _ hm => hm.interrupt) fun _ _ hm => hm.congr rfl rfl rfl rfl

/-! ### The way of a reply -/

theorem Reachable.interrupt_reply (h : Reachable o m) : m.interrupt.reply = none := by
  rw [interrupt]
  split
  · simp
  · next hstopped => exact h.inputSound.reply_eq_none hstopped

/-- However a bounded run ends, there is no reply at hand. -/
theorem Reachable.runSteps_reply (h : Reachable o m) (limit : Nat) (cancelAfter : Option Nat) :
    (m.runSteps limit cancelAfter).2.2.reply = none := by
  have hturns : Stepper.turns limit ≠ 0 := by
    rw [Stepper.turns]
    split <;> omega
  obtain ⟨turns, hturns⟩ := Nat.exists_eq_succ_of_ne_zero hturns
  rw [runSteps, Stepper.runAll, hturns]
  refine Stepper.run_last (P := fun t : Timed => Reachable o t.machine)
    (Q := fun t : Timed => t.machine.reply = none) (fun t ht hidle => ?_)
    (fun t ht => ⟨ht.perform .interrupt, ht.interrupt_reply⟩)
    (fun t ht => ⟨ht.perform .step, (ht.inputSound.step ht).2⟩) limit turns 0 h
  cases hreply : t.machine.reply with
  | none => rfl
  | some r => simp [stepper, (ht.inputSound.pending r hreply).1] at hidle

/-- A reply that is at hand after an operation was at hand before, at the same place, or was given
just now to the machine that waited there. -/
theorem Reachable.perform_reply (h : Reachable o m) (op : Operation) {r : Bytes}
    (hr : (m.perform op).reply = some r) :
    (m.perform op).program = m.program ∧
      (m.reply = some r ∨ m.state = .awaitingInput ∧
        ∃ text, op = .provideInput text ∧ r = Bytes.trimLineEnds text) := by
  cases op with
  | submit line =>
    rw [Machine.perform] at hr ⊢
    by_cases hstopped : m.Stopped
    · cases ((h.inputSound.submit line).2 hstopped).symm.trans hr
    · rw [Machine.submit, if_pos (not_not.mp hstopped)] at hr ⊢
      exact ⟨rfl, .inl hr⟩
  | step => cases (h.inputSound.step h).2.symm.trans hr
  | provideInput text =>
    rw [Machine.perform, provideInput?] at hr ⊢
    split at hr
    · next hwaiting =>
      rw [if_pos hwaiting]
      rw [Option.getD_some, enter_reply] at hr
      exact ⟨enter_program _ _, .inr ⟨hwaiting, text, rfl, (Option.some.inj hr).symm⟩⟩
    · next hwaiting =>
      rw [if_neg hwaiting]
      exact ⟨rfl, .inl hr⟩
  | interrupt => cases h.interrupt_reply.symm.trans hr
  | runSteps limit cancelAfter => cases (h.runSteps_reply limit cancelAfter).symm.trans hr
  | takeOutput => exact ⟨rfl, .inl hr⟩

/-- A reply reaches exactly the `INPUT` that asked for it. A machine that waits is at the keyword of
the `INPUT` that the step which stopped there had come down to, and it has no reply; a machine with
a reply runs, is at an `INPUT`, and executes this one next. No reply survives a step, failed or not,
or an interruption, and a reply that survives anything else was at hand before, at the same place,
or was given just then to the machine that waited there. -/
theorem reachable_reply (h : Reachable o m) :
    (m.state = .awaitingInput → m.reply = none ∧ ∃ m₀ n s, Reachable o m₀ ∧
      m₀.state = .running ∧ m₀.step.2.state = .awaitingInput ∧ m₀.upcoming? = some n ∧
      n.LeadsTo s ∧ s.program.peek? = some (.keyword .INPUT) ∧ m₀.step.2.program = s.program ∧
      m.program = s.program) ∧
    (∀ r, m.reply = some r → m.state = .running ∧
      m.program.peek? = some (.keyword .INPUT) ∧
      ∃ n, m.upcoming? = some n ∧ n.program = m.program) ∧
    m.step.2.reply = none ∧ m.interrupt.reply = none ∧
    ∀ op r, (m.perform op).reply = some r → (m.perform op).program = m.program ∧
      (m.reply = some r ∨ m.state = .awaitingInput ∧
        ∃ text, op = .provideInput text ∧ r = Bytes.trimLineEnds text) := by
  have hsound := h.inputSound
  refine ⟨fun hwaiting => ?_, fun r hr => ?_, (hsound.step h).2, h.interrupt_reply,
    fun op r hr => h.perform_reply op hr⟩
  · obtain ⟨m₀, n, s, hm₀, hrunning, hwaits, hn, hs, hthen, hnow⟩ := hsound.waiting hwaiting
    exact ⟨hnow.reply, m₀, n, s, hm₀, hrunning, hwaits, hn, hs, hnow.keyword, hthen.program,
      hnow.program⟩
  · obtain ⟨hrunning, hkeyword⟩ := hsound.pending r hr
    have hstart := toStatement?_eq hkeyword
    refine ⟨hrunning, hkeyword, m.announce, ?_, announce_program m⟩
    rw [upcoming?, hstart, Option.map_some, (hsound.execute_reply h.sound hr hstart).2.1]

/-- Here the second statement of a line was given a reply that it does not accept. -/
theorem reachable_reply_refused :
    ∃ m, Reachable {} m ∧ m.reply = some (utf8 "X") ∧ m.state = .running ∧
      m.program.peek? = some (.keyword .INPUT) ∧ m.step.2.reply = none ∧
      m.step.2.state = .awaitingInput ∧ m.step.2.program.location = ⟨.immediate, 2⟩ := by
  have h : Reachable {} ((((new {}).perform (.submit (utf8 "RESTORE:INPUT A"))).perform
      (.runSteps 9 none)).perform (.provideInput (utf8 "X"))) :=
    .perform _ (.perform _ (.perform _ .start))
  obtain ⟨-, hpending, hstep, -⟩ := reachable_reply h
  obtain ⟨hrunning, hkeyword, -⟩ := hpending (utf8 "X") (by decide +kernel)
  exact ⟨_, h, by decide +kernel, hrunning, hkeyword, hstep, by decide +kernel, by decide +kernel⟩

end LineBasic.Machine
