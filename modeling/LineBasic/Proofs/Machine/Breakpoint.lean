import LineBasic.Proofs.Machine.Consistency
import LineBasic.Proofs.Machine.RememberOperation

/-!
# Breakpoints and bodies of functions

Where a run was broken off and where the body of a function starts are bare places, and lines may be
stored and deleted between a break and the `CONT` that goes on there. Storing a line forgets the
breakpoint, wherever it is, and the functions on the line. So what is left is never out of date: a
breakpoint is on a stored line, and in front of the body of a function stands the equals sign of its
definition. A run that was broken off therefore goes on exactly where it was.

## Main definitions

* `Machine.Current` — the breakpoint and the functions of a machine are not out of date

## Main results

* `Machine.Reachable.current` — this holds of every machine that a host can bring about
* `Machine.reachable_breakpoint` — what it says of breakpoints, functions and `CONT`
-/

namespace LineBasic.Machine

variable {o : Options} {m m' : Machine} {line : Bytes}

/-- The breakpoint is on a stored line, and stored lines show where functions start. -/
structure Current (m : Machine) : Prop where
  breakpoint : ∀ loc, m.program.breakpoint = some loc → m.program.OnLine loc
  functions : ∀ (name : Name) (f : Function), m.functions[name]? = some f →
    m.program.Shows StartsBody f.body

namespace Current

/-- A new place shows what it should, and an old one still does, since the lines are the same. -/
theorem remembered (h : m.Current) (hkept : m.Remembered m') : m'.Current where
  breakpoint loc hloc :=
    ((hkept.breakpoint loc hloc).elim (h.breakpoint loc) id).congr hkept.lines
  functions name f hf :=
    ((hkept.functions name f hf).elim (h.functions name f) id).congr hkept.lines

/-- Storing a line forgets the breakpoint, and the functions on the line. -/
theorem storeLine (h : m.Current) (n : Nat) (tokens : List Token) :
    (m.storeLine n tokens).Current where
  breakpoint _ hloc := nomatch hloc
  functions name f hf := by
    obtain ⟨hold, hother⟩ := functions_storeLine n tokens hf
    obtain ⟨k, ts, hline, hts, hshows⟩ := h.functions name f hold
    have hk : n ≠ k := by
      rintro rfl
      exact hother hline
    exact ⟨k, ts, hline, (Program.getElem?_store_of_ne _ _ hk).trans hts, hshows⟩

end Current

theorem Reachable.current (h : Reachable o m) : m.Current := by
  refine h.induction_remembered (P := Current) ⟨nofun, ?_⟩ ?_ ?_
  · intro name f hf
    rw [show (new o).functions = ∅ from rfl, Std.ExtTreeMap.getElem?_empty] at hf
    cases hf
  · intro m m' ih hkept
    exact ih.remembered hkept
  · intro m n tokens ih
    exact (ih.storeLine n tokens).remembered ((Remembered.refl _).enter .idle)

/-! ### `CONT` -/

/-- Without a breakpoint a run cannot be continued. -/
theorem runCommand_cont_of_none (h : m.program.breakpoint = none) :
    (m.runCommand .cont).1 = some ⟨.cannotContinue, .immediate⟩ ∧
      (m.runCommand .cont).2.state = .idle := by
  rw [runCommand.eq_def]
  simp [record, Program.continueRun, h]

/-- A run goes on at the breakpoint, unless the place was cut off. -/
theorem runCommand_cont_of_some {loc : Location} {tokens : List Token}
    (h : m.program.breakpoint = some loc) (htokens : m.program.tokensOf? loc.line = some tokens)
    (hindex : loc.index ≤ tokens.length) :
    m.runCommand .cont = (none, { m.record (.command (Command.spelling .cont)) with
      program := { m.program with
        breakpoint := none, location := loc, current := tokens } }.enter .running) := by
  have hmove : m.program.clearBreakpoint.moveTo? loc = some { m.program with
      breakpoint := none, location := loc, current := tokens } :=
    Program.moveTo?_eq (p := m.program.clearBreakpoint) htokens hindex
  rw [runCommand.eq_def]
  simp only [record, Program.continueRun, h, hmove]

/-- Neither breakpoints nor functions are ever out of date. A breakpoint is on a stored line, not
behind its end, and the body of a function is on a stored line, in front of its end and directly
behind an equals sign. So a machine that is neither running nor waiting accepts a `CONT` exactly if
there is a breakpoint, and then it is at the very place that was remembered, with the tokens of the
line as they are stored. -/
theorem reachable_breakpoint (h : Reachable o m) :
    (∀ loc, m.program.breakpoint = some loc → ∃ n tokens,
        loc.line = .numbered n ∧ m.program.lines[n]? = some tokens ∧ loc.index ≤ tokens.length) ∧
      (∀ (name : Name) (f : Function), m.functions[name]? = some f → ∃ n tokens k,
        f.body.line = .numbered n ∧ m.program.lines[n]? = some tokens ∧
          f.body.index < tokens.length ∧ f.body.index = k + 1 ∧
          tokens[k]? = some (.mark .equal)) ∧
      (m.Stopped → ∀ line, Command.read? (Bytes.trimLineEnds line) = some .cont →
        ((m.submit line).1 = none ↔ m.program.breakpoint.isSome = true) ∧
        ((m.submit line).2.state = .running ↔ m.program.breakpoint.isSome = true) ∧
        ∀ loc, m.program.breakpoint = some loc →
          (m.submit line).2.program.location = loc ∧
          m.program.tokensOf? loc.line = some (m.submit line).2.program.current) := by
  have hcurrent := h.current
  refine ⟨hcurrent.breakpoint, ?_, ?_⟩
  · intro name f hf
    obtain ⟨n, tokens, hline, htokens, hindex, k, hk, hequal⟩ := hcurrent.functions name f hf
    exact ⟨n, tokens, k, hline, htokens, hindex, hk, hequal⟩
  · intro hstopped line hline
    rw [submit_command hstopped hline]
    cases hbreak : m.program.breakpoint with
    | none =>
      obtain ⟨hfault, hstate⟩ := runCommand_cont_of_none hbreak
      simp [hfault, hstate]
    | some loc =>
      obtain ⟨n, tokens, hnumbered, htokens, hindex⟩ := hcurrent.breakpoint loc hbreak
      have htokens : m.program.tokensOf? loc.line = some tokens := by
        rw [hnumbered]
        exact htokens
      rw [runCommand_cont_of_some hbreak htokens hindex]
      refine ⟨by simp, by simp, ?_⟩
      rintro _ ⟨⟩
      exact ⟨by simp, by simp [htokens]⟩

/-- Here a run was broken off at an `INPUT`, behind the definition of a function. -/
theorem reachable_breakpoint_defined :
    ∃ m, Reachable {} m ∧ m.Stopped ∧ m.program.breakpoint = some ⟨.numbered 10, 8⟩ ∧
      (∃ n tokens, Line.numbered 10 = .numbered n ∧ m.program.lines[n]? = some tokens ∧
        8 ≤ tokens.length) ∧
      (∃ n tokens k, Line.numbered 10 = .numbered n ∧ m.program.lines[n]? = some tokens ∧
        6 < tokens.length ∧ 6 = k + 1 ∧ tokens[k]? = some (.mark .equal)) ∧
      (m.submit (utf8 "CONT")).1 = none ∧ (m.submit (utf8 "CONT")).2.state = .running ∧
      (m.submit (utf8 "CONT")).2.program.location = ⟨.numbered 10, 8⟩ := by
  have h : Reachable {} ((((((new {}).perform
      (.submit (utf8 "10 DEF FNA(X)=X:INPUT A$"))).perform (.submit (utf8 "RUN"))).perform
      .step).perform .step).perform .interrupt) :=
    .perform _ (.perform _ (.perform _ (.perform _ (.perform _ .start))))
  have hread : (Token.read (Bytes.trimLineEnds (utf8 "10 DEF FNA(X)=X:INPUT A$"))).map numbered? =
      .ok (some (10, [.keyword .DEF, .symbol (utf8 "FNA"), .mark .lparen, .symbol (utf8 "X"),
        .mark .rparen, .mark .equal, .symbol (utf8 "X"), .mark .colon, .keyword .INPUT,
        .symbol (utf8 "A$")])) := by
    decide +kernel
  rw [perform_numbered (by decide +kernel) (by decide +kernel) hread,
    perform_run (by decide +kernel) (startAtFirst?_singleton rfl)] at h
  obtain ⟨hbreak, hbodies, hcont⟩ := reachable_breakpoint h
  obtain ⟨hfault, hstate, hplace⟩ := hcont (by unfold Stopped; decide +kernel) (utf8 "CONT")
    (by decide +kernel)
  exact ⟨_, h, by unfold Stopped; decide +kernel, by decide +kernel,
    hbreak ⟨.numbered 10, 8⟩ (by decide +kernel),
    hbodies (utf8 "FNA") ⟨utf8 "X", [], ⟨.numbered 10, 6⟩⟩ (by decide +kernel),
    hfault.mpr (by decide +kernel), hstate.mpr (by decide +kernel),
    (hplace ⟨.numbered 10, 8⟩ (by decide +kernel)).1⟩

end LineBasic.Machine
