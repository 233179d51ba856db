import LineBasic.Proofs.Machine.Advance
import LineBasic.Proofs.Machine.Typed

/-!
# Every reachable machine is typed

Values are stored by `LET`, `INPUT`, `READ`, `FOR`, `NEXT` and `DIM`, and each sees to their types
in its own way: by a check, by a conversion, or because the variable held a number before. So
whatever a host does, what is stored under a name has the type that the name says.

The same pass shows that no fault of a statement names a line by itself. Only `READ` reports a field
of data for the line of the field; it keeps types as well.

## Main results

* `Machine.statement_cases` — a statement is a `READ`, an `IF`, or one that keeps types and whose
  faults name no line
* `Machine.keepsTyped_execute` — all that a step executes keeps types
* `Machine.Reachable.typed` — every reachable machine is typed
-/

namespace LineBasic.Machine

variable {α : Type} {m m' : Machine}

/-! ### Parts of statements -/

theorem keepsTyped_ofEval {x : Eval α} (h : Keeps Typed Cause.Unnamed x) :
    Keeps Typed Stop.Unnamed (ofEval x) :=
  keeps_ofEval h

/-- A change of the program that leaves the pending calls alone. -/
theorem keepsTyped_modifyProgram {f : Program → Program} (hf : ∀ p, (f p).calls = p.calls) :
    Keeps Typed Stop.Unnamed (modifyProgram f) := by
  refine .modify fun m hm => hm.congr rfl ?_ rfl
  change (f m.program).calls ⊆ m.program.calls
  rw [hf]
  exact List.Subset.refl _

/-- A change of what is neither stored under a name nor pending. -/
theorem keepsTyped_modify {f : Machine → Machine} (hscalars : ∀ m, (f m).scalars = m.scalars)
    (hcalls : ∀ m, (f m).program.calls = m.program.calls)
    (harrays : ∀ m, (f m).arrays = m.arrays) :
    Keeps Typed Stop.Unnamed (modify f : Exec Unit) := by
  refine .modify fun m hm => hm.congr (hscalars m) ?_ (harrays m)
  rw [hcalls]
  exact List.Subset.refl _

theorem keepsTyped_accept (k : Token.Kind) : Keeps Typed Stop.Unnamed (accept k) :=
  keepsTyped_ofEval (keepsTyped_onProgram (Program.keepsTyped_accept k))

theorem keepsTyped_expect (k : Token.Kind) : Keeps Typed Stop.Unnamed (expect k) :=
  keepsTyped_ofEval (keepsTyped_onProgram (Program.keepsTyped_expect k))

theorem keepsTyped_nextName : Keeps Typed Stop.Unnamed nextName :=
  keepsTyped_ofEval (keepsTyped_onProgram Program.keepsTyped_nextName)

theorem keepsTyped_fail {c : Cause} (hc : c.Unnamed) :
    Keeps Typed Stop.Unnamed (fail c : Exec α) :=
  .throw hc

theorem keepsTyped_signal (s : Signal) :
    Keeps Typed Stop.Unnamed (throw (.signal s) : Exec α) :=
  .throw trivial

/-- The parts of statements that read the line keep types. -/
theorem readRules_keepsTyped : ReadRules Typed fun _ => Keeps Typed Stop.Unnamed where
  pure := .pure
  bind := .bind
  look _ hf := .get_bind hf
  fail _ hc := .throw hc
  ofExcept hr := keepsTyped_ofEval (keepsTyped_ofExcept hr)
  accept _ := keepsTyped_accept _
  expect _ := keepsTyped_expect _
  nextName := keepsTyped_nextName
  expression := keepsTyped_ofEval keepsTyped_expression
  numberExpression := keepsTyped_ofEval keepsTyped_numberExpression
  subscripts := keepsTyped_ofEval keepsTyped_subscripts
  target := keepsTyped_ofEval keepsTyped_target

/-- So does assignment, also as part of what may stop for further reasons. -/
theorem execRules_keepsTyped {B : Stop → Prop} (hB : ∀ e, Stop.Unnamed e → B e) :
    ExecRules Typed fun _ => Keeps Typed B where
  toReadRules := readRules_keepsTyped.mono (·.mono hB) .bind .get_bind
  assign t v := (keepsTyped_ofEval (keepsTyped_assign t v)).mono hB
  emit _ := .mono (keepsTyped_modify (fun _ => rfl) (fun _ => rfl) fun _ => rfl) hB
  ask _ := .mono (keepsTyped_modify (fun _ => rfl) (fun _ => rfl) fun _ => rfl) hB

theorem keepsTyped_parts : ExecRules Typed fun _ => Keeps Typed Stop.Unnamed :=
  execRules_keepsTyped fun _ he => he

theorem keepsTyped_pass (n : Nat) : Keeps Typed Stop.Unnamed (modifyProgram (·.skip n)) :=
  keepsTyped_modifyProgram fun _ => rfl

/-! ### Statements -/

theorem keepsTyped_dimItem : Keeps Typed Stop.Unnamed dimItem := by
  refine keepsTyped_nextName.bind fun name => (keepsTyped_expect _).bind fun _ => ?_
  refine (keepsTyped_ofEval keepsTyped_subscripts).bind fun bounds => .get_bind fun m _ => ?_
  dsimp only
  split
  · exact keepsTyped_fail rfl
  · refine .bind_of_yields (Q := Grid.Typed name) (fun m hm => ?_) fun g hg => ?_
    · exact concludes_ofEval (yields_ofExcept (Grid.failsInExpression_make _ _ _)
        (Grid.gives_make name _ _) m hm)
    · exact (Keeps.modify fun _ hm => hm.insertArray hg).bind fun _ => .pure true

theorem keepsTyped_suspend (prompt : Bytes) : Keeps Typed Stop.Unnamed (suspend prompt) :=
  keepsTyped_parts.suspend
    (keepsTyped_ofEval (keepsTyped_onProgram (Program.keepsTyped_rewindBefore _)))
    (keepsTyped_fail rfl) (keepsTyped_signal _) prompt

theorem keepsTyped_endBranch (keyword : Location) :
    Keeps Typed Stop.Unnamed (endBranch keyword) := by
  refine .get_bind fun m _ => ?_
  split
  · exact keepsTyped_modify (fun _ => rfl) (fun _ => rfl) fun _ => rfl
  · exact .pure ()

theorem keepsTyped_inputStatement : Keeps Typed Stop.Unnamed inputStatement :=
  keepsTyped_parts.inputStatement
    (keepsTyped_modify (fun _ => rfl) (fun _ => rfl) fun _ => rfl)
    (fun _ _ _ => keepsTyped_endBranch _) keepsTyped_suspend

theorem keepsTyped_goTo (n : Nat) :
    Keeps Typed Stop.Unnamed (ofEval (onProgram (Program.goTo n))) :=
  keepsTyped_ofEval (keepsTyped_onProgram (Program.keepsTyped_goTo n))

theorem keepsTyped_goToNumber (x : Float) : Keeps Typed Stop.Unnamed (goToNumber x) :=
  keepsTyped_parts.goToNumber keepsTyped_goTo x

theorem keepsTyped_discardRest : Keeps Typed Stop.Unnamed (modifyProgram Program.discardRest) :=
  keepsTyped_modifyProgram fun _ => rfl

theorem keepsTyped_skipBranch : Keeps Typed Stop.Unnamed skipBranch :=
  keepsTyped_parts.skipBranch keepsTyped_pass keepsTyped_discardRest

theorem keepsTyped_chooseBranch : Keeps Typed Stop.Unnamed chooseBranch :=
  keepsTyped_parts.chooseBranch (keepsTyped_accept _) keepsTyped_skipBranch

theorem keepsTyped_aloneOnLine {B : Stop → Prop} {statement : Exec Unit}
    (h : Keeps Typed B statement) : Keeps Typed B (aloneOnLine statement) := fun m hm =>
  concludes_aloneOnLine (h m hm) (fun _ hm' => hm'.congr rfl (List.Subset.refl _) rfl)
    fun _ hm' => ⟨hm'.1.congr rfl (List.Subset.refl _) rfl, hm'.2⟩

/-- An `IF` stops for the reasons of its branches, or for one that names no line. -/
theorem keepsTyped_ifStatement {B : Stop → Prop} (hB : ∀ e, Stop.Unnamed e → B e)
    {statement : Exec Unit} (h : Keeps Typed B statement) :
    Keeps Typed B (ifStatement statement) := by
  have hrules := execRules_keepsTyped hB
  exact hrules.ifStatement (keepsTyped_chooseBranch.mono hB)
    (hrules.branch (fun n => (keepsTyped_goTo n).mono hB) (keepsTyped_aloneOnLine h))

theorem keepsTyped_forStatement : Keeps Typed Stop.Unnamed forStatement :=
  keepsTyped_parts.forStatement
    (fun _ x hname => keepsTyped_ofEval (keepsTyped_setVariable (Value.fits_num hname x)))
    fun name limit step _ =>
      keepsTyped_ofEval (keepsTyped_onProgram (Program.keepsTyped_startLoop name limit step))

/-- A variable whose value is a number has a name of numbers. -/
theorem Typed.isString_of_number (h : m.Typed) {name : Name} {x : Float}
    (hx : (m.lookup name).number = .ok x) : name.isString = false := by
  have hfits := Value.fits_iff.mp (h.lookup name)
  cases hvalue : m.lookup name with
  | num y =>
    rw [hvalue] at hfits
    exact hfits.symm
  | str s =>
    rw [hvalue] at hx
    cases hx

theorem keepsTyped_nextLoop (name : Name) : Keeps Typed Stop.Unnamed (nextLoop name) := by
  refine .get_bind fun m hm => ?_
  refine .bind_of_yields (Q := fun _ => name.isString = false) (fun m' hm' => ?_)
    fun value hname => ?_
  · exact concludes_ofEval (yields_ofExcept (m.lookup name).failsInExpression_number
      (fun x hx => hm.isString_of_number hx) m' hm')
  · refine (keepsTyped_ofEval (keepsTyped_onProgram
      (Program.keepsTyped_endLoop name value))).bind fun x => ?_
    exact keepsTyped_ofEval (keepsTyped_setVariable (Value.fits_num hname x))

theorem keepsTyped_nextItem : Keeps Typed Stop.Unnamed nextItem :=
  keepsTyped_parts.nextItem keepsTyped_nextLoop

theorem keepsTyped_defStatement : Keeps Typed Stop.Unnamed defStatement :=
  keepsTyped_parts.defStatement
    (fun _ _ _ _ _ => keepsTyped_modify (fun _ => rfl) (fun _ => rfl) fun _ => rfl)
    (keepsTyped_modifyProgram fun _ => rfl)

/-- A field that cannot be stored is reported for its own line; all else that can go wrong is not.
-/
theorem keepsTyped_readItem : Keeps Typed (fun _ => True) readItem :=
  (execRules_keepsTyped fun _ _ => trivial).readItem
    ((keepsTyped_ofEval (keepsTyped_onProgram Program.keepsTyped_nextDatum)).mono
      fun _ _ => trivial)
    fun _ => .throw trivial

/-! ### Every statement -/

/-- A statement is a `READ`, an `IF`, or one that keeps types and whose faults name no line. -/
theorem statement_cases (tokens : Nat) (n : Machine) :
    (n.program.peek? = some (.keyword .READ) ∧
        statement (tokens + 1) n = items readItem n.past) ∨
      (n.program.peek? = some (.keyword .IF) ∧
        statement (tokens + 1) n = ifStatement (statement tokens) n.past) ∨
      ∃ x : Exec Unit, Keeps Typed Stop.Unnamed x ∧ statement (tokens + 1) n = x n := by
  have hpast : ∀ {x : Exec Unit}, Keeps Typed Stop.Unnamed x →
      ∃ y : Exec Unit, Keeps Typed Stop.Unnamed y ∧ x n.past = y n := fun {x} hx =>
    ⟨modifyProgram (·.skip 1) >>= fun _ => x,
      .bind (keepsTyped_modifyProgram fun _ => rfl) fun _ => hx, rfl⟩
  rw [statement, get_bind_apply]
  generalize hpeek : n.program.peek? = peeked
  split
  · exact .inr (.inr ⟨fail .endOfInput, keepsTyped_fail rfl, rfl⟩)
  · exact .inr (.inr ⟨_, keepsTyped_parts.letStatement, rfl⟩)
  · next t _ =>
    rw [skip_bind_apply]
    split
    · exact .inr (.inr (hpast (.pure ())))
    · exact .inr (.inr (hpast (.pure ())))
    · exact .inr (.inr (hpast (.pure ())))
    · exact .inr (.inr (hpast keepsTyped_discardRest))
    · exact .inr (.inr (hpast keepsTyped_parts.letStatement))
    · exact .inr (.inr (hpast (keepsTyped_parts.dimStatement keepsTyped_dimItem)))
    · exact .inr (.inr (hpast keepsTyped_parts.printStatement))
    · exact .inr (.inr (hpast keepsTyped_parts.printStatement))
    · exact .inr (.inr (hpast keepsTyped_inputStatement))
    · exact .inr (.inl ⟨rfl, rfl⟩)
    · exact .inr (.inr (hpast (keepsTyped_parts.gotoStatement keepsTyped_goTo)))
    · exact .inr (.inr (hpast (keepsTyped_parts.gosubStatement fun n =>
        keepsTyped_ofEval (keepsTyped_onProgram (Program.keepsTyped_gosub n)))))
    · exact .inr (.inr (hpast (keepsTyped_ofEval
        (keepsTyped_onProgram Program.keepsTyped_returnFromGosub))))
    · exact .inr (.inr (hpast (keepsTyped_signal _)))
    · exact .inr (.inr (hpast (keepsTyped_signal _)))
    · exact .inr (.inr (hpast keepsTyped_forStatement))
    · exact .inr (.inr (hpast (keepsTyped_parts.nextStatement keepsTyped_nextLoop)))
    · exact .inr (.inr (hpast (keepsTyped_modifyProgram fun _ => rfl)))
    · exact .inr (.inr (hpast keepsTyped_defStatement))
    · exact .inl ⟨rfl, rfl⟩
    · exact .inr (.inr (hpast (keepsTyped_fail rfl)))

/-- Every statement keeps types, by induction on the tokens left. -/
theorem keepsTyped_statement (tokens : Nat) :
    Keeps Typed (fun _ => True) (statement tokens) := by
  induction tokens with
  | zero => exact .throw trivial
  | succ tokens ih =>
    intro n hn
    have hpast : n.past.Typed := hn.congr rfl (List.Subset.refl _) rfl
    rcases statement_cases tokens n with ⟨-, heq⟩ | ⟨-, heq⟩ | ⟨x, hx, heq⟩
    · rw [heq]
      exact (execRules_keepsTyped fun _ _ => trivial).items keepsTyped_readItem n.past hpast
    · rw [heq]
      exact keepsTyped_ifStatement (fun _ _ => trivial) ih n.past hpast
    · rw [heq]
      exact hx.mono (fun _ _ => trivial) n hn

theorem keepsTyped_endStatement : Keeps Typed Stop.Unnamed endStatement :=
  keepsTyped_parts.endStatement (keepsTyped_accept _) keepsTyped_discardRest

theorem Typed.atStatement (h : m.Typed) : m.atStatement.Typed :=
  h.congr rfl (List.Subset.refl _) rfl

theorem keepsTyped_execute : Keeps Typed (fun _ => True) execute := by
  intro m hm
  rw [execute_apply]
  split
  · exact hm.congr rfl (List.Subset.refl _) rfl
  · exact (keepsTyped_statement _).bind (fun _ => keepsTyped_endStatement.mono fun _ _ => trivial)
      m.atStatement hm.atStatement

/-! ### Operations -/

namespace Typed

theorem enter (h : m.Typed) (s : State) : (m.enter s).Typed := by
  rw [Machine.enter]
  split
  · exact h.congr rfl (List.Subset.refl _) rfl
  · exact h.congr rfl (List.Subset.refl _) rfl

theorem announce (h : m.Typed) : m.announce.Typed := by
  rw [Machine.announce]
  split
  · exact h.congr rfl (List.Subset.refl _) rfl
  · exact h.congr rfl (List.Subset.refl _) rfl

theorem toStatement? (h : m.Typed) (hm : m.toStatement? = some m') : m'.Typed := by
  rcases toStatement?_eq_some hm with ⟨rfl, -⟩ | ⟨line, tokens, rfl⟩
  · exact h
  · exact h.congr rfl (List.Subset.refl _) rfl

/-- The machine at the statement that is executed next stores the same. -/
theorem upcoming? (h : m.Typed) (hm : m.upcoming? = some m') : m'.Typed := by
  obtain ⟨m₁, hstart, rfl⟩ := Option.map_eq_some_iff.mp hm
  exact (h.toStatement? hstart).announce.atStatement

theorem markBreak (h : m.Typed) : m.markBreak.Typed := by
  refine h.congr rfl ?_ rfl
  rw [Machine.markBreak, emit, Program.interrupt]
  split
  · exact List.Subset.refl _
  · exact List.Subset.refl _

/-- A fault drops calls, and nothing that is stored. -/
theorem abort (h : m.Typed) (cause : Cause) (line : Line) : (m.abort cause line).2.Typed := by
  have hdropped : { m with
      program := m.program.resetStacks.clearBreakpoint
      reply := none
      branchInput := none }.Typed := h.congr rfl (List.nil_subset _) rfl
  exact (hdropped.enter .idle).congr rfl (List.Subset.refl _) rfl

theorem step (h : m.Typed) : m.step.2.Typed := by
  by_cases hrunning : m.state = .running
  · have hexecute : ∀ {m₁ : Machine}, m.toStatement? = some m₁ →
        Concludes (fun _ => Typed) (fun _ m' => m'.Typed ∧ True) (execute m₁.announce) :=
      fun hstart => keepsTyped_execute _ (h.toStatement? hstart).announce
    have hend := stepped hrunning
    generalize m.step = r at hend ⊢
    cases hend with
    | through hstart => exact h.enter .idle
    | next hstart hend hnext =>
      have hdone := (hexecute hstart).of_ok hend
      exact Typed.toStatement? hdone hnext
    | last hstart hend hnext =>
      have hdone := (hexecute hstart).of_ok hend
      exact Typed.enter hdone .idle
    | finish hstart hend =>
      have hdone := (hexecute hstart).of_error hend
      exact hdone.1.enter .idle
    | stop hstart hend =>
      have hdone := (hexecute hstart).of_error hend
      exact hdone.1.markBreak.enter .idle
    | await hstart hend =>
      have hdone := (hexecute hstart).of_error hend
      exact hdone.1.enter .awaitingInput
    | fault line hstart hend =>
      have hdone := (hexecute hstart).of_error hend
      exact hdone.1.abort _ line
  · rw [Machine.step, if_pos hrunning]
    exact h

/-- `RUN` forgets all that is stored under names; the other commands leave it alone. -/
theorem runCommand (h : m.Typed) (c : Command) : (m.runCommand c).2.Typed := by
  have hrecorded : (m.record (.command c.spelling)).Typed := h.congr rfl (List.Subset.refl _) rfl
  rw [Machine.runCommand.eq_def]
  dsimp only
  generalize m.record (.command c.spelling) = m at hrecorded ⊢
  cases c with
  | run =>
    have hcleared : { m.clear with program := m.program.reset }.Typed := by
      refine ⟨Bindings.typed_empty, fun f hf => ?_, fun name g hg => ?_⟩
      · cases hf
      · change (∅ : Std.ExtTreeMap Name Grid)[name]? = some g at hg
        rw [Std.ExtTreeMap.getElem?_empty] at hg
        cases hg
    dsimp only
    split
    · next p hfirst =>
      obtain ⟨n, -, hmove⟩ := Option.bind_eq_some_iff.mp hfirst
      refine Typed.enter ?_ .running
      refine hcleared.congr rfl ?_ rfl
      exact Program.subset_of_moveTo? hmove
    · exact hcleared.enter .idle
  | list =>
    dsimp only
    split
    · exact hrecorded.enter .idle
    · refine Typed.enter ?_ .idle
      exact hrecorded.congr rfl (List.Subset.refl _) rfl
  | new => exact hrecorded.enter .newRequested
  | cont =>
    have hcont : Concludes (fun _ => Program.Typed) (fun _ => Program.Typed)
        (Program.continueRun m.program) := by
      rw [Program.continueRun]
      split
      · exact hrecorded.program
      · split
        · next p hmove =>
          have hkept := Program.subset_of_moveTo? hmove
          exact hrecorded.program.of_subset hkept
        · exact hrecorded.program
    dsimp only
    split
    · next p heq =>
      rw [heq] at hcont
      exact Typed.enter (hrecorded.withProgram hcont) .running
    · next c p heq =>
      rw [heq] at hcont
      exact Typed.enter (hrecorded.withProgram hcont) .idle
  | trace => exact hrecorded.congr rfl (List.Subset.refl _) rfl
  | noTrace => exact hrecorded.congr rfl (List.Subset.refl _) rfl

/-- Calls that are dropped when a line is started leave the others alone. -/
theorem startImmediate (h : m.Typed) (tokens : List Token) : (m.startImmediate tokens).Typed := by
  refine Typed.enter ?_ .running
  refine h.congr rfl (fun f hf => ?_) rfl
  have hkept : f ∈ Program.numberedPart Frame.ret m.program.calls := hf
  exact List.mem_reverse.mp ((List.takeWhile_subset _) (List.mem_reverse.mp hkept))

theorem submit (h : m.Typed) (line : Bytes) : (m.submit line).2.Typed := by
  have hend := submitted m line
  generalize m.submit line = r at hend ⊢
  cases hend with
  | refused => exact h
  | command => exact h.runCommand _
  | stored =>
    refine Typed.enter ?_ .idle
    exact h.congr rfl (List.Subset.refl _) rfl
  | executed => exact h.startImmediate _
  | dropped => exact h.enter .idle

end Typed

theorem typed_new (o : Options) : (new o).Typed := by
  refine ⟨Bindings.typed_empty, nofun, fun name g hg => ?_⟩
  change (∅ : Std.ExtTreeMap Name Grid)[name]? = some g at hg
  rw [Std.ExtTreeMap.getElem?_empty] at hg
  cases hg

/-- Whatever a host does, what is stored under a name has the type that the name says. -/
theorem Reachable.typed {o : Options} (h : Reachable o m) : m.Typed := by
  refine h.induction (typed_new o) (fun m line _ hm => hm.submit line) (fun m _ hm => hm.step)
    (fun m text _ hm => ?_) (fun m _ hm => ?_) fun m _ hm => hm.congr rfl (List.Subset.refl _) rfl
  · rw [provideInput?]
    split
    · refine Typed.enter ?_ .running
      exact hm.congr rfl (List.Subset.refl _) rfl
    · exact hm
  · rw [interrupt]
    split
    · refine Typed.enter ?_ .idle
      exact hm.markBreak.congr rfl (List.Subset.refl _) rfl
    · exact hm

end LineBasic.Machine
