import LineBasic.Proofs.Machine.BranchInput

/-!
# One statement of a branch

An `IF` executes one statement, and what stands to the right of it on the line is dropped. So
nothing to the right of an `IF` is executed on its own, with two exceptions. An `INPUT` in a branch
is executed again when its reply has come. And a `GOSUB`, a `FOR` or a `STOP` in a branch remembers
the place behind itself, where execution goes on when it comes back: what follows there is executed,
although it belongs to what the `IF` should have dropped.

## Main definitions

* `RightOfIf` — the places to the right of an `IF`
* `BehindBranch` — the places to the right of a `GOSUB`, `FOR` or `STOP` in a branch
* `Machine.Runs` — how a run goes on while the program stays the same

## Main results

* `Machine.step_if` — where an `IF` goes
* `Machine.runs_rightOfIf` — what may be executed to the right of an `IF`
-/

namespace LineBasic

/-- A place is to the right of an `IF`. The words of a definition do not count. -/
def RightOfIf (tokens : List Token) (i : Nat) : Prop :=
  ∃ j < i, tokens[j]? = some (.keyword .IF) ∧
    ∀ k < j, tokens[k]? = some (.keyword .DEF) →
      ∃ e t, k < e ∧ e < j ∧ tokens[e]? = some t ∧ t.endsStatement = true

/-- A place is to the right of a statement of a branch that remembers where to go on. -/
def BehindBranch (tokens : List Token) (i : Nat) : Prop :=
  ∃ j k, j < i ∧ StartsBranch tokens j ∧ tokens[j]? = some (.keyword k) ∧
    (k = .GOSUB ∨ k = .FOR ∨ k = .STOP)

theorem BehindBranch.mono {tokens : List Token} {a b : Nat} (h : BehindBranch tokens a)
    (hab : a ≤ b) : BehindBranch tokens b := by
  obtain ⟨j, k, hj, hbranch⟩ := h
  exact ⟨j, k, Nat.lt_of_lt_of_le hj hab, hbranch⟩

/-- From a place without an `IF` to its left, statement by statement, there is none further right.
-/
theorem persists_rightOfIf :
    Persists fun tokens i => RightOfIf tokens i → BehindBranch tokens i where
  start := by
    rintro tokens ⟨j, hj, -⟩
    exact absurd hj (Nat.not_lt_zero j)
  behind := by
    rintro tokens a b ha ⟨hab, hbetween⟩ hcolon ⟨j, hj, hif, hdef⟩
    by_cases hja : j < a
    · exact (ha ⟨j, hja, hif, hdef⟩).mono (by omega)
    · exfalso
      have hne : j ≠ b := by
        rintro rfl
        cases hif.symm.trans hcolon
      rcases hbetween with ⟨hstart, hinside⟩ | ⟨hstart, hplain⟩
      · by_cases hj' : j = a
        · exact hstart (hj' ▸ hif)
        · have hinner := hinside j _ (by omega) (by omega) hif
          cases hinner
      · by_cases hj' : j = a
        · rw [← hj'] at hstart
          cases hif.symm.trans hstart
        · obtain ⟨e, t, hae, hej, ht, hends⟩ := hdef a (by omega) hstart
          rw [hplain e t hae (by omega) ht] at hends
          cases hends
  remembered := by
    rintro tokens a b k ha hkeyword hk hab hinside ⟨j, hj, hif, hdef⟩
    rcases ha with ha | hbranch
    · by_cases hja : j < a
      · exact (ha ⟨j, hja, hif, hdef⟩).mono (Nat.le_of_lt hab)
      · exfalso
        by_cases hj' : j = a
        · rw [hj', hkeyword] at hif
          cases hif
          simp at hk
        · have hinner := hinside j _ (by omega) hj hif
          cases hinner
    · exact ⟨a, k, hab, hbranch, hkeyword, hk⟩

namespace Machine

variable {o : Options} {m m' n : Machine}

/-- How a run goes on after `m`, with any replies, interruptions and commands, as long as no line of
the program is stored and no other line is executed between an `INPUT` in a branch and its reply. -/
inductive Runs (m : Machine) : Machine → Prop where
  | start : Runs m m
  | perform {m' : Machine} (op : Operation) : Runs m m' →
      (∀ line tokens, op = .submit line → Spells line tokens →
        numbered? tokens = none ∧ ¬m'.Disturbs line) → Runs m (m'.perform op)

/-- No line of a run takes the property away. -/
theorem Runs.guarded {Good : List Token → Nat → Prop} (hgood : Persists Good) (h : Runs m m')
    (hreachable : Reachable o m) (hm : m.Guarded Good) : Reachable o m' ∧ m'.Guarded Good := by
  induction h with
  | start => exact ⟨hreachable, hm⟩
  | @perform m' op _ hop ih =>
    refine ⟨ih.1.perform op, ih.2.perform hgood ih.1 fun line hline => ?_⟩
    constructor
    · intro tokens n rest hspells hstored
      cases (hop line tokens hline hspells).1.symm.trans hstored
    · intro tokens hspells hexecuted loc hbroken
      rcases ih.2.breakpoint loc hbroken with hplace | ⟨hremembered, -⟩
      · exact hplace
      · exact absurd (.between hspells hexecuted hbroken hremembered)
          (hop line tokens hline hspells).2

/-- Only an `INPUT` is executed with a reply at hand. -/
theorem reply_eq_none (h : Reachable o m) (hn : m.upcoming? = some n)
    (hkeyword : n.program.peek? ≠ some (.keyword .INPUT)) : m.reply = none := by
  obtain ⟨m₁, hnext, rfl⟩ := Option.map_eq_some_iff.mp hn
  cases hreply : m.reply with
  | none => rfl
  | some r =>
    obtain ⟨-, hinput⟩ := h.inputSound.pending r hreply
    obtain ⟨rfl, hplace, -⟩ := h.inputSound.execute_reply h.sound hreply hnext
    rw [hplace, announce_program] at hkeyword
    exact absurd hinput hkeyword

/-- On the way to a statement, no place is remembered. -/
theorem resumes_of_upcoming (hn : m.upcoming? = some n) {loc : Location}
    (hloc : n.program.Resumes loc) : m.program.Resumes loc := by
  obtain ⟨m₁, hnext, rfl⟩ := Option.map_eq_some_iff.mp hn
  have hloc' : m₁.program.Resumes loc := by
    rw [← announce_program m₁]
    exact hloc
  rcases toStatement?_eq_some hnext with ⟨rfl, -⟩ | ⟨line, tokens, rfl⟩
  · exact hloc'
  · exact hloc'

/-- An `IF` that leaves something to execute on its line has gone to the start of the line, or back
to a call or a loop that was pending. -/
theorem Executed.place_of_if (h : n.Executed m)
    (hkeyword : n.program.peek? = some (.keyword .IF))
    (hindex : m.program.location.index < m.program.current.length) :
    m.program.location.index = 0 ∨ n.program.Resumes m.program.location := by
  cases h.lands with
  | behind b line current belongs colon index =>
    rcases belongs.2 with ⟨hno, -⟩ | ⟨hdef, -⟩
    · exact absurd hkeyword hno
    · cases hkeyword.symm.trans hdef
  | ended line current index =>
    rw [index, current] at hindex
    exact absurd hindex (Nat.lt_irrefl _)
  | start index => exact .inl index
  | back loc resumes location =>
    have hplace : m.program.location = loc := by
      rw [location] at hindex ⊢
      change min loc.index m.program.current.length < m.program.current.length at hindex
      rw [Nat.min_eq_left (by omega)]
    rw [hplace]
    exact .inr resumes

/-- An `IF` drops what follows it: from there the machine goes to the start of a line, or back to a
call or a loop that was pending. -/
theorem step_if (h : Reachable o m) (hrunning : m.state = .running) (hn : m.upcoming? = some n)
    (hkeyword : n.program.peek? = some (.keyword .IF)) (hgoes : m.step.2.state = .running) :
    m.step.2.program.location.index = 0 ∨
      m.program.Resumes m.step.2.program.location := by
  have hreply : m.reply = none := reply_eq_none h hn (by rw [hkeyword]; nofun)
  have hresumes : ∀ loc, n.program.Resumes loc → m.program.Resumes loc :=
    fun _ => resumes_of_upcoming hn
  obtain ⟨m₁, hnext, rfl⟩ := Option.map_eq_some_iff.mp hn
  have hactive := ((h.sound.active hrunning).toStatement? hnext).announce
  have hnone : m₁.announce.reply = none := by
    obtain ⟨p, rfl⟩ := exists_of_toStatement? hnext
    exact (announce_reply _).trans hreply
  have hstepped := stepped hrunning
  generalize m.step = r at hstepped hgoes ⊢
  cases hstepped with
  | @next _ m₂ m₃ hstart hend hfollows =>
    cases hnext.symm.trans hstart
    have hexecuted := concludes_execute hactive hnone
    rw [hend] at hexecuted
    rcases toStatement?_eq_some hfollows with ⟨rfl, hindex⟩ | ⟨line, tokens, rfl⟩
    · exact (hexecuted.place_of_if hkeyword hindex).imp_right (hresumes _)
    · exact .inl rfl
  | through hstart => cases hnext.symm.trans hstart
  | last => cases (enter_state _ _).symm.trans hgoes
  | finish => cases (enter_state _ _).symm.trans hgoes
  | stop => cases (enter_state _ _).symm.trans hgoes
  | await => cases (enter_state _ _).symm.trans hgoes
  | fault => cases (abort_state _ _ _).symm.trans hgoes

/-- In a run, an `IF` drops what follows it: from there the machine goes to the start of a line, or
back to a call or a loop that was pending. And nothing to the right of an `IF` is executed, unless
it is the `INPUT` of a branch that has been waiting for a reply, or it is to the right of a `GOSUB`,
`FOR` or `STOP` in a branch. -/
theorem runs_rightOfIf (h : Reachable o m) (hstopped : m.Stopped) {line : Bytes}
    (hline : Command.read? (Bytes.trimLineEnds line) = some .run)
    (hrun : Runs (m.submit line).2 m') (hrunning : m'.state = .running)
    (hn : m'.upcoming? = some n) {t : Token} (ht : n.program.peek? = some t) :
    (t = .keyword .IF → m'.step.2.state = .running →
      m'.step.2.program.location.index = 0 ∨ m'.program.Resumes m'.step.2.program.location) ∧
    (RightOfIf n.program.current n.program.location.index →
      t = .keyword .INPUT ∧ m'.branchInput = some n.program.location ∧
          StartsBranch n.program.current n.program.location.index ∨
        BehindBranch n.program.current n.program.location.index) := by
  have hstart : m.submit line = m.runCommand .run := by
    rw [submit, if_neg (by exact hstopped)]
    simp only [hline]
  have hm : (m.submit line).2.Guarded fun tokens i =>
      RightOfIf tokens i → BehindBranch tokens i := by
    rw [hstart]
    exact .run persists_rightOfIf m
  obtain ⟨hreachable, hguarded⟩ := hrun.guarded persists_rightOfIf (h.perform (.submit line)) hm
  refine ⟨fun hif => step_if hreachable hrunning hn (hif ▸ ht), fun hright => ?_⟩
  obtain ⟨m₁, hnext, rfl⟩ := Option.map_eq_some_iff.mp hn
  have hactive := ((hreachable.sound.active hrunning).toStatement? hnext).announce
  have hplace := (hguarded.toStatement? persists_rightOfIf hnext).announce.atStatement
    persists_rightOfIf hactive
  -- the place is a good one, or an `INPUT` of a branch that has been waiting
  rcases hplace.good_or_input (active_atStatement hactive) ht with
    hgood | ⟨hkeyword, hremembered, hbranch⟩
  · exact .inr (hgood hright)
  · refine .inl ⟨hkeyword, ?_, hbranch⟩
    obtain ⟨p, rfl⟩ := exists_of_toStatement? hnext
    rw [← hremembered]
    exact (announce_branchInput { m' with program := p }).symm

/-- Here the `INPUT` in a branch has been given its reply. -/
theorem runs_rightOfIf_input :
    ∃ m m' n, Reachable {} m ∧ m.Stopped ∧
      Command.read? (Bytes.trimLineEnds (utf8 "RUN")) = some .run ∧
      Runs (m.submit (utf8 "RUN")).2 m' ∧ m'.state = .running ∧ m'.upcoming? = some n ∧
      n.program.peek? = some (.keyword .INPUT) ∧
      RightOfIf n.program.current n.program.location.index ∧
      m'.branchInput = some n.program.location := by
  have hstopped : askingStored.Stopped := stopped_enter_idle _
  have hline : Command.read? (Bytes.trimLineEnds (utf8 "RUN")) = some .run := by decide +kernel
  have hrun : Runs (askingStored.submit (utf8 "RUN")).2
      ((askingWait.enter .awaitingInput).perform (.provideInput (utf8 "5"))) := by
    have hstep := Runs.start.perform (m := askingRun) .step (by simp)
    rw [perform, step_askingRun, ← perform_askingStored] at hstep
    exact hstep.perform _ (by simp)
  generalize hm : (askingWait.enter .awaitingInput).perform (.provideInput (utf8 "5")) = m' at hrun
  have hrunning : m'.state = .running := by
    rw [← hm]
    rfl
  have hn : m'.upcoming? = some m'.announce.atStatement := by
    rw [← hm, upcoming?, toStatement?_eq (t := .keyword .INPUT) rfl, Option.map_some]
  have ht : m'.announce.atStatement.program.peek? = some (.keyword .INPUT) := by
    rw [← hm]
    rfl
  have hright : RightOfIf m'.announce.atStatement.program.current
      m'.announce.atStatement.program.location.index := by
    rw [← hm]
    exact ⟨0, by decide +kernel, rfl, fun k hk => absurd hk (Nat.not_lt_zero k)⟩
  have h := orderly_askingStored.reachable
  refine ⟨askingStored, m', _, h, hstopped, hline, hrun, hrunning, hn, ht, hright, ?_⟩
  rcases (runs_rightOfIf h hstopped hline hrun hrunning hn ht).2 hright with
    ⟨-, hremembered, -⟩ | ⟨j, k, hj, -, hkeyword, hk⟩
  · exact hremembered
  · exfalso
    rw [← hm] at hj hkeyword
    have hj' : j < 3 := hj
    obtain rfl | rfl | rfl : j = 0 ∨ j = 1 ∨ j = 2 := by omega
    · cases hkeyword
      simp at hk
    · cases hkeyword
    · cases hkeyword
      simp at hk

end Machine

end LineBasic
