import LineBasic.Proofs.Expr.Reading
import LineBasic.Proofs.Grid.Count
import LineBasic.Proofs.Machine.Reachable

/-!
# No program finds an inconsistency

A host that runs any program with any replies never sees an internal fault. The machine looks out
for what cannot happen: the return from a function must find a pending call and the line of the
caller, an `INPUT` that waits its keyword, and what is cut out of a string or looked up by its place
must be there. One such fault would not be seen, though. When the body of a function has failed, a
second fault on the return from it is dropped, so the calls of functions are looked at wherever a
step may evaluate something.

## Main definitions

* `Machine.MidStep` — what holds of a machine whenever a step evaluates something

## Main results

* `Machine.MidStep.concludes_pushFunction` — a call finds the body, and the return finds the caller
* `Machine.perform_numbered`, `Machine.perform_immediate`, `Machine.perform_run` — storing a line,
  running one at once, and running what is stored
* `Machine.step_consistent` — no reachable machine can find an inconsistency
-/

namespace LineBasic.Machine

/-! ### Calls in the middle of a step -/

/-- Whenever a step of `m` evaluates something, neither the functions nor the stored lines have
changed, and the location is on the line that is executed. -/
structure MidStep (m m' : Machine) : Prop where
  functions : m'.functions = m.functions
  lines : m'.program.lines = m.program.lines
  synced : m'.program.Synced
  index : m'.program.location.index ≤ m'.program.current.length

variable {o : Options} {m m' m'' : Machine}

namespace MidStep

theorem walked (h : m.MidStep m') (hwalked : m'.Walked m'') : m.MidStep m'' := by
  have hprogram := hwalked.program
  have hwithin := hwalked.within
  generalize m''.program.location.index = i at hprogram hwithin
  constructor
  · rw [hwalked.functions, h.functions]
  · rw [hprogram]
    exact h.lines
  · rw [hprogram]
    exact h.synced
  · rw [hprogram]
    exact hwithin

/-- The body of a function is where it was when the step started. -/
theorem body (h : m.MidStep m') (hm : m.Sound o) {name : Name} {f : Function}
    (hf : m.functions[name]? = some f) :
    ∃ tokens, m'.program.tokensOf? f.body.line = some tokens ∧ f.body.index ≤ tokens.length := by
  obtain ⟨n, tokens, hline, htokens, hindex⟩ := hm.bodies name f hf
  refine ⟨tokens, ?_, Nat.le_of_lt hindex⟩
  rw [hline]
  exact (congrArg (fun lines => lines[n]?) h.lines).trans htokens

theorem fit (h : m.MidStep m') (hm : m.Sound o) : m'.Fit m'.functions m'.callsLeft := by
  refine ⟨rfl, h.synced, fun name f hf => ?_, rfl⟩
  rw [h.functions] at hf
  exact h.body hm hf

/-- Evaluation is still in the middle of the step when it ends, and it does not fail for want of a
line. -/
theorem concludes_walked {α : Type} {r : EStateM.Result Cause Machine α} {i : Nat}
    (h : m.MidStep m')
    (hr : Concludes (fun _ e => m'.Walked e ∧ e.program.location.index = i)
      (fun c e => m'.Walked e ∧ c.inExpression = true) r) :
    Concludes (fun _ e => m.MidStep e)
      (fun c e => m.MidStep e ∧ c.Ordinary ∧ c ≠ .undefinedStatement) r := by
  refine hr.mono (fun _ _ he => h.walked he.1) ?_
  rintro c e ⟨he, hc⟩
  refine ⟨h.walked he, Cause.ordinary_of_inExpression hc, ?_⟩
  rintro rfl
  cases hc

/-- A call finds the body of the function, unless too many are pending. From there evaluation goes
on in the middle of the step, and wherever it ends, the return finds the caller. -/
theorem concludes_pushFunction (h : m.MidStep m') (hm : m.Sound o) {name : Name} {f : Function}
    (params : Bindings) (hf : m.functions[name]? = some f) :
    Concludes
      (fun _ inside => m.MidStep inside ∧
        bodyAt m'.callsLeft name inside = evalBody expression name inside ∧
        Concludes
          (fun _ e => onProgram Program.popFunction e = .ok () { e with program := m'.program })
          (fun _ e => onProgram Program.popFunction e = .ok () { e with program := m'.program })
          (expression inside))
      (fun c _ => c = .stackOverflow) (onProgram (Program.pushFunction params f.body) m') := by
  obtain ⟨tokens, htokens, hindex⟩ := h.body hm hf
  cases hd : m'.callsLeft with
  | zero =>
    rw [pushFunction_overflow hd]
    rfl
  | succ d =>
    rw [pushFunction_inside hd params htokens hindex]
    have hinside : m.MidStep (m'.inside params f.body tokens) :=
      ⟨h.functions, h.lines, htokens, hindex⟩
    have hleft := callsLeft_inside hd params f.body tokens
    refine ⟨hinside, ?_, ?_⟩
    · simp only [bodyAt, evalBody, inFunction, expression, bind_apply, get_apply, hleft]
    · -- evaluation stays on the line of the body, so the call on top is still this one
      refine ((hinside.fit hm).expression hindex).mono ?_ ?_
      · exact fun _ e he => popFunction_inside h.synced h.index he.1.program
      · exact fun _ e he => popFunction_inside h.synced h.index he.1.program

end MidStep

/-! ### Storing a line and running it -/

/-- A program with one line starts at it. -/
theorem startAtFirst?_singleton {p : Program} {n : Nat} {tokens : List Token}
    (h : p.lines = (∅ : Std.ExtTreeMap Nat (List Token)).insert n tokens) :
    p.startAtFirst? = some { p with location := (Line.numbered n).start, current := tokens } := by
  have htokens : p.tokensOf? (Line.numbered n).start.line = some tokens :=
    (congrArg (fun lines => lines[n]?) h).trans Std.ExtTreeMap.getElem?_insert_self
  have hfirst : p.lines.minKey? = some n := by
    rw [h, Std.ExtTreeMap.minKey?_insert_of_isEmpty Std.ExtTreeMap.isEmpty_empty]
  rw [Program.startAtFirst?, hfirst]
  exact Program.moveTo?_eq htokens (Nat.zero_le _)

/-- A line with a number is stored. -/
theorem perform_numbered {line : Bytes} {n : Nat} {tokens : List Token}
    (hm : ¬ (m.state = .running ∨ m.state = .awaitingInput))
    (hcommand : Command.read? (Bytes.trimLineEnds line) = none)
    (hread : (Token.read (Bytes.trimLineEnds line)).map numbered? = .ok (some (n, tokens))) :
    m.perform (.submit line) = (m.storeLine n tokens).enter .idle := by
  cases htokens : Token.read (Bytes.trimLineEnds line) with
  | error c =>
    rw [htokens] at hread
    cases hread
  | ok ts =>
    rw [htokens] at hread
    have hnumbered : numbered? ts = some (n, tokens) := Except.ok.inj hread
    simp only [perform, submit, if_neg hm, hcommand, htokens, hnumbered]

/-- A line without a number becomes the immediate line and runs. -/
theorem perform_immediate {line : Bytes} {tokens : List Token}
    (hm : ¬ (m.state = .running ∨ m.state = .awaitingInput))
    (hcommand : Command.read? (Bytes.trimLineEnds line) = none)
    (hread : Token.read (Bytes.trimLineEnds line) = .ok tokens)
    (hnumbered : numbered? tokens = none) (htokens : tokens ≠ []) :
    m.perform (.submit line) = m.startImmediate tokens := by
  simp only [perform, submit, if_neg hm, hcommand, hread, hnumbered, List.isEmpty_iff,
    if_neg htokens]

/-- The command `RUN` starts at the lowest line. -/
theorem perform_run {p : Program} (hm : ¬ (m.state = .running ∨ m.state = .awaitingInput))
    (hp : m.program.reset.startAtFirst? = some p) :
    m.perform (.submit (utf8 "RUN")) =
      { (m.record (.command (utf8 "RUN"))).clear with program := p }.enter .running := by
  have hread : Command.read? (Bytes.trimLineEnds (utf8 "RUN")) = some .run := by decide +kernel
  have hreset : (m.record (.command Command.run.spelling)).program.reset = m.program.reset := rfl
  simp only [perform, submit, if_neg hm, hread, runCommand, hreset, hp]
  rfl

/-- The value of a number that is not followed by an operator. -/
theorem expression_number {x : Float} {tail : List Token}
    (hrest : m.program.rest = .number x :: tail)
    (hends : ∀ t ∈ tail.head?, BinaryOp.ofToken? t = none) :
    expression m = .ok (.num x) { m with program := m.program.skip 1 } := by
  have hread : Expr.read m.program.rest = .number x := by
    rw [hrest]
    refine Tree.read_tokens (t := .number x) fun t ht => ⟨hends t ht, fun _ name => ?_⟩
    simp [Tree.tokens, Tree.tokensAt]
  rw [expression, get_bind_apply, hread, evalWith]
  rfl

/-! ### Reachable machines -/

/-- A step of a machine that a host can bring about never ends with an internal fault. Whenever it
evaluates something, evaluation finds no inconsistency either, not even one that is then dropped: it
stays within strings and arrays, a call finds the body of its function unless too many are pending,
and the return from it finds the caller. -/
theorem step_consistent (h : Reachable o m) :
    (∀ fault ∈ m.step.1, fault.cause.kind ≠ .internal) ∧
      (m.state = .running → m.MidStep m) ∧
      (∀ m', m.MidStep m' →
        Concludes (fun _ e => m.MidStep e)
          (fun c e => m.MidStep e ∧ c.kind ≠ .internal ∧ c ≠ .undefinedStatement)
          (expression m') ∧
        Concludes (fun _ e => m.MidStep e)
          (fun c e => m.MidStep e ∧ c.kind ≠ .internal ∧ c ≠ .undefinedStatement)
          (subscripts m') ∧
        ∀ (name : Name) (f : Function) (params : Bindings), m.functions[name]? = some f →
          Concludes
            (fun _ inside => m.MidStep inside ∧
              bodyAt m'.callsLeft name inside = evalBody expression name inside ∧
              Concludes
                (fun _ e => onProgram Program.popFunction e =
                  .ok () { e with program := m'.program })
                (fun _ e => onProgram Program.popFunction e =
                  .ok () { e with program := m'.program })
                (expression inside))
            (fun c _ => c = .stackOverflow)
            (onProgram (Program.pushFunction params f.body) m')) ∧
      ∀ (strings : Bool) (sizes : List Int) (bound : Int) (g : Grid),
        Grid.make strings sizes bound = .ok g → Grid.count bound 1 sizes = .ok (g.size : Int) := by
  have hsound := h.sound
  refine ⟨hsound.step_spec.2, fun hrunning => ?_, fun m' hm' => ⟨?_, ?_, ?_⟩, ?_⟩
  · exact ⟨rfl, rfl, hsound.synced (.inl hrunning), hsound.program.index⟩
  · exact hm'.concludes_walked ((hm'.fit hsound).expression hm'.index)
  · exact hm'.concludes_walked ((hm'.fit hsound).subscripts hm'.index)
  · exact fun name f params hf => hm'.concludes_pushFunction hsound params hf
  · exact fun strings sizes bound g hg => Grid.count_of_make hg

/-- Here the first statement of a run has defined a function, and an `INPUT` comes next. -/
theorem step_consistent_defined :
    ∃ m f, Reachable {} m ∧ m.functions[utf8 "FNA"]? = some f ∧
      (∀ fault ∈ m.step.1, fault.cause.kind ≠ .internal) ∧
      m.step.2.state = .awaitingInput ∧
      Concludes (fun _ _ => True) (fun c _ => c = .stackOverflow)
        (onProgram (Program.pushFunction ∅ f.body) m) := by
  have h : Reachable {} ((((new {}).perform (.submit (utf8 "10 DEF FNA(X)=X:INPUT A$"))).perform
      (.submit (utf8 "RUN"))).perform .step) := .perform _ (.perform _ (.perform _ .start))
  have hread : (Token.read (Bytes.trimLineEnds (utf8 "10 DEF FNA(X)=X:INPUT A$"))).map numbered? =
      .ok (some (10, [.keyword .DEF, .symbol (utf8 "FNA"), .mark .lparen, .symbol (utf8 "X"),
        .mark .rparen, .mark .equal, .symbol (utf8 "X"), .mark .colon, .keyword .INPUT,
        .symbol (utf8 "A$")])) := by
    decide +kernel
  -- the lowest line is found by a lemma, since the search for it does not evaluate
  rw [perform_numbered (by decide +kernel) (by decide +kernel) hread,
    perform_run (by decide +kernel) (startAtFirst?_singleton rfl)] at h
  obtain ⟨hfault, hmid, hany, -⟩ := step_consistent h
  refine ⟨_, ⟨utf8 "X", [], ⟨.numbered 10, 6⟩⟩, h, by decide +kernel, hfault, by decide +kernel, ?_⟩
  exact ((hany _ (hmid (by decide +kernel))).2.2 (utf8 "FNA") _ ∅ (by decide +kernel)).mono
    (fun _ _ _ => trivial) fun _ _ hc => hc

end LineBasic.Machine
