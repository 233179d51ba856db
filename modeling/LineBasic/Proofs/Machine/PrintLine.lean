import LineBasic.Proofs.Machine.Consistency
import LineBasic.Proofs.Machine.OutputActions
import LineBasic.Proofs.Machine.Reply

/-!
# Lines that print variables

While a run is broken off, a host may look at variables by lines such as `PRINT A;B$`. A line that
prints nothing but literals and scalar variables comes to its end without a fault, and it changes
nothing but what is shown and the place.

## Main definitions

* `PrintLine` — the tokens of such a line
* `Machine.Aside` — one machine is another one that has shown something and stands elsewhere

## Main results

* `Machine.statement_print` — one `PRINT`
* `Machine.step_print` — one step of such a line
* `Machine.steps_startImmediate`, `Machine.exists_steps_startImmediate` — the whole line
-/

namespace LineBasic

/-- A token of a `PRINT` that shows literals and scalar variables only. -/
inductive Token.Printed : Token → Prop where
  | number (x : Float) : Printed (.number x)
  | string (s : Bytes) : Printed (.string s)
  | symbol (name : Name) : Printed (.symbol name)
  | comma : Printed (.mark .comma)
  | semicolon : Printed (.mark .semicolon)

/-- A line of `PRINT`s that show literals and scalar variables only. -/
inductive PrintLine : List Token → Prop where
  | nil : PrintLine []
  | colon {ts : List Token} (rest : PrintLine ts) : PrintLine (.mark .colon :: ts)
  | last {t : Token} {ts : List Token} (keyword : t = .keyword .PRINT ∨ t = .mark .question)
      (printed : ∀ u ∈ ts, u.Printed) : PrintLine (t :: ts)
  | more {t : Token} {ts us : List Token} (keyword : t = .keyword .PRINT ∨ t = .mark .question)
      (printed : ∀ u ∈ ts, u.Printed) (rest : PrintLine us) :
      PrintLine (t :: (ts ++ .mark .colon :: us))

namespace Program

theorem peek?_eq_none {p : Program} (h : p.rest = []) : p.peek? = none := by
  rw [peek?, List.getElem?_eq_none_iff]
  exact List.drop_eq_nil_iff.mp h

theorem atEnd_of_nil {p : Program} (h : p.rest = []) : p.atEnd = true := by
  simpa [atEnd] using List.drop_eq_nil_iff.mp h

theorem atEnd_of_cons {p : Program} {t : Token} {ts : List Token} (h : p.rest = t :: ts) :
    p.atEnd = false := by
  simpa [atEnd] using (List.getElem?_eq_some_iff.mp (peek?_of_rest h)).1

theorem skip_skip (p : Program) (i j : Nat) : (p.skip i).skip j = p.skip (i + j) := by
  simp only [skip, Nat.add_assoc]

end Program

/-- Neither an operator nor a parenthesis comes next. -/
theorem ends_printed {written tail : List Token}
    (htail : ∀ u ∈ tail.head?, u.Printed ∨ u = .mark .colon) : Ends written tail := by
  intro u hu
  rcases htail u hu with hprinted | rfl
  · cases hprinted with
    | number x => exact ⟨rfl, nofun⟩
    | string s => exact ⟨rfl, nofun⟩
    | symbol name => exact ⟨rfl, nofun⟩
    | comma => exact ⟨rfl, nofun⟩
    | semicolon => exact ⟨rfl, nofun⟩
  · exact ⟨rfl, nofun⟩

namespace Machine

variable {m m' : Machine}

/-! ### One statement -/

/-- The value of a literal or a scalar variable in such a line. -/
theorem expression_printed {t : Token} {tail : List Token} (hrest : m.program.rest = t :: tail)
    (ht : t.Printed) (hcomma : t ≠ .mark .comma) (hsemicolon : t ≠ .mark .semicolon)
    (htail : ∀ u ∈ tail.head?, u.Printed ∨ u = .mark .colon) :
    ∃ v, expression m = .ok v { m with program := m.program.skip 1 } := by
  rw [expression, get_bind_apply, hrest]
  cases ht with
  | number x =>
    have hread : Expr.read (.number x :: tail) = .number x :=
      Tree.read_tokens (t := .number x) (ends_printed htail)
    rw [hread, evalWith]
    exact ⟨_, rfl⟩
  | string s =>
    have hread : Expr.read (.string s :: tail) = .string s :=
      Tree.read_tokens (t := .string s) (ends_printed htail)
    rw [hread, evalWith]
    exact ⟨_, rfl⟩
  | symbol name =>
    have hread : Expr.read (.symbol name :: tail) = .scalar name :=
      Tree.read_tokens (t := .scalar name) (ends_printed htail)
    rw [hread, evalWith]
    exact ⟨_, rfl⟩
  | comma => exact absurd rfl hcomma
  | semicolon => exact absurd rfl hsemicolon

/-- One item or separator is taken, and the others follow. -/
theorem printItems_cons {t : Token} {tail : List Token} (hrest : m.program.rest = t :: tail)
    (ht : t.Printed) (htail : ∀ u ∈ tail.head?, u.Printed ∨ u = .mark .colon) (items : Nat)
    (out : Printout) : ∃ out', printItems (items + 1) out m = printItems items out' m.past := by
  have hpeek : m.program.peek? = some t := Program.peek?_of_rest hrest
  have hnot : m.program.atStatementEnd = false := by
    rw [Program.atStatementEnd, hpeek]
    cases ht <;> rfl
  have hshow : t ≠ .mark .comma → t ≠ .mark .semicolon → ∃ out', (ofEval expression >>= fun v =>
      printItems items ⟨out.text ++ v.text, true, false⟩) m = printItems items out' m.past := by
    intro hcomma hsemicolon
    obtain ⟨v, hv⟩ := expression_printed hrest ht hcomma hsemicolon htail
    refine ⟨⟨out.text ++ v.text, true, false⟩, ?_⟩
    rw [bind_apply, ofEval, hv]
    rfl
  rw [printItems, get_bind_apply]
  dsimp only
  rw [if_neg (by simp [hnot]), hpeek]
  cases ht with
  | comma => exact ⟨_, rfl⟩
  | semicolon => exact ⟨_, rfl⟩
  | number x => exact hshow (by simp) (by simp)
  | string s => exact hshow (by simp) (by simp)
  | symbol name => exact hshow (by simp) (by simp)

/-- What is printed takes up its tokens, and nothing else happens. -/
theorem printItems_printed {ts tail : List Token} (hrest : m.program.rest = ts ++ tail)
    (hprinted : ∀ u ∈ ts, u.Printed) (htail : ∀ u ∈ tail.head?, u = .mark .colon) {items : Nat}
    (hitems : ts.length ≤ items) (out : Printout) :
    ∃ out', printItems items out m = .ok out' { m with program := m.program.skip ts.length } := by
  induction ts generalizing m items out with
  | nil =>
    cases items with
    | zero => exact ⟨out, rfl⟩
    | succ items =>
      have hend : m.program.atStatementEnd = true := by
        cases tail with
        | nil => rw [Program.atStatementEnd, Program.peek?_eq_none hrest]
        | cons u us =>
          rw [Program.atStatementEnd, Program.peek?_of_rest hrest, htail u rfl]
          rfl
      refine ⟨out, ?_⟩
      rw [printItems, get_bind_apply]
      dsimp only
      rw [if_pos hend]
      rfl
  | cons t ts ih =>
    obtain ⟨items, rfl⟩ : ∃ k, items = k + 1 := ⟨items - 1, by simp at hitems; omega⟩
    have hnext : ∀ u ∈ (ts ++ tail).head?, u.Printed ∨ u = .mark .colon := by
      intro u hu
      cases ts with
      | nil => exact .inr (htail u hu)
      | cons w ws =>
        cases hu
        exact .inl (hprinted _ (by simp))
    -- the text differs from item to item, the place does not depend on it
    obtain ⟨out₁, hout₁⟩ := printItems_cons hrest (hprinted t List.mem_cons_self) hnext items out
    obtain ⟨out₂, hout₂⟩ := ih (m := m.past) (rest_past hrest)
      (fun u hu => hprinted u (List.mem_cons_of_mem _ hu)) (by simpa using hitems) out₁
    refine ⟨out₂, ?_⟩
    rw [hout₁, hout₂, past, Program.skip_skip, Nat.add_comm]
    rfl

/-- A `PRINT` shows something and goes behind what it prints. -/
theorem statement_print {t : Token} {ts tail : List Token}
    (hrest : m.program.rest = t :: (ts ++ tail))
    (hkeyword : t = .keyword .PRINT ∨ t = .mark .question) (hprinted : ∀ u ∈ ts, u.Printed)
    (htail : ∀ u ∈ tail.head?, u = .mark .colon) (tokens : Nat) :
    ∃ text, statement (tokens + 1) m =
      .ok () ({ m with program := m.program.skip (ts.length + 1) }.emit (.print text)) := by
  have hpast : m.past.program.rest = ts ++ tail := rest_past hrest
  have hprint : ∃ text, printStatement m.past =
      .ok () ({ m with program := m.program.skip (ts.length + 1) }.emit (.print text)) := by
    have hroom : ts.length ≤ m.past.program.rest.length := by simp [hpast]
    obtain ⟨out, hout⟩ := printItems_printed hpast hprinted htail hroom {}
    have hbehind : m.past.program.skip ts.length = m.program.skip (ts.length + 1) := by
      rw [past, Program.skip_skip, Nat.add_comm]
    refine ⟨if out.newline then out.text ++ [0x0a] else out.text, ?_⟩
    rw [printStatement, get_bind_apply, bind_apply, hout, hbehind]
    rfl
  rw [statement, get_bind_apply, Program.peek?_of_rest hrest]
  rcases hkeyword with rfl | rfl
  · exact hprint
  · exact hprint

/-- Nothing is left to do at the end of the line. -/
theorem endStatement_of_nil (hrest : m.program.rest = []) : endStatement m = .ok () m := by
  rw [endStatement, get_bind_apply]
  simp only [Program.atEnd_of_nil hrest, Bool.or_true, if_true]
  rfl

/-- The colon after a statement is taken. -/
theorem endStatement_of_colon {ts : List Token} (hrest : m.program.rest = .mark .colon :: ts)
    (hjumped : m.program.jumped = false) : endStatement m = .ok () m.past := by
  have hkind : m.program.peekKind? = some (.mark .colon) := by
    rw [Program.peekKind?, Program.peek?_of_rest hrest]
    rfl
  rw [endStatement, get_bind_apply]
  simp only [hjumped, Program.atEnd_of_cons hrest, Bool.or_false, Bool.false_eq_true, if_false]
  rw [bind_apply, accept_apply, if_pos hkind]
  rfl

end Machine

/-- Behind the colons in front of it, such a line has a `PRINT`, if anything. -/
theorem PrintLine.behindColons {ts : List Token} (h : PrintLine ts) :
    ts.drop (ts.takeWhile (· == .mark .colon)).length = [] ∨
      ∃ t us tail, ts.drop (ts.takeWhile (· == .mark .colon)).length = t :: (us ++ tail) ∧
        (t = .keyword .PRINT ∨ t = .mark .question) ∧ (∀ u ∈ us, u.Printed) ∧
        (tail = [] ∨ ∃ rest, tail = .mark .colon :: rest ∧ PrintLine rest) := by
  have hstart : ∀ {t : Token} (us : List Token), t = .keyword .PRINT ∨ t = .mark .question →
      ((t :: us).takeWhile (· == .mark .colon)).length = 0 := by
    rintro t us (rfl | rfl)
    · rfl
    · rfl
  induction h with
  | nil => exact .inl rfl
  | colon rest ih => simpa using ih
  | @last t ts keyword printed =>
    rw [hstart _ keyword, List.drop_zero]
    exact .inr ⟨t, ts, [], by simp, keyword, printed, .inl rfl⟩
  | @more t ts us keyword printed rest ih =>
    rw [hstart _ keyword, List.drop_zero]
    exact .inr ⟨t, ts, _, rfl, keyword, printed, .inr ⟨us, rfl, rest⟩⟩

namespace Machine

variable {m m' m'' : Machine}

/-! ### A line of such statements -/

/-- The second machine is the first one, after it has shown something, and elsewhere on the line. -/
def Aside (m m' : Machine) : Prop :=
  ∃ output log state index jumped, m' =
    { m with
      output, log, state
      program := { m.program with location := ⟨m.program.location.line, index⟩, jumped } }

namespace Aside

theorem refl (m : Machine) : m.Aside m :=
  ⟨m.output, m.log, m.state, m.program.location.index, m.program.jumped, rfl⟩

theorem trans (h : m.Aside m') (h' : m'.Aside m'') : m.Aside m'' := by
  obtain ⟨output, log, state, index, jumped, rfl⟩ := h
  obtain ⟨output, log, state, index, jumped, rfl⟩ := h'
  exact ⟨output, log, state, index, jumped, rfl⟩

theorem line (h : m.Aside m') : m'.program.location.line = m.program.location.line := by
  obtain ⟨output, log, state, index, jumped, rfl⟩ := h
  rfl

theorem enter (m : Machine) (s : State) : m.Aside (m.enter s) := by
  rw [Machine.enter]
  split
  · exact ⟨_, _, _, _, _, rfl⟩
  · exact ⟨_, _, _, _, _, rfl⟩

theorem announce (m : Machine) : m.Aside m.announce := by
  rw [Machine.announce]
  split
  · exact ⟨_, _, _, _, _, rfl⟩
  · exact ⟨_, _, _, _, _, rfl⟩

end Aside

/-- At the end of the line only colons were left. -/
theorem execute_of_nil (hrest : m.atStatement.program.rest = []) :
    ∃ m', execute m = .ok () m' ∧ m.Aside m' ∧ m'.state = m.state ∧ m'.program.rest = [] := by
  rw [execute_apply, if_pos (Program.atEnd_of_nil hrest)]
  exact ⟨_, rfl, ⟨_, _, _, _, _, rfl⟩, rfl, hrest⟩

/-- A `PRINT` is executed together with the colon behind it, if there is one. -/
theorem execute_of_print {t : Token} {us tail : List Token}
    (hrest : m.atStatement.program.rest = t :: (us ++ tail))
    (hkeyword : t = .keyword .PRINT ∨ t = .mark .question) (hprinted : ∀ u ∈ us, u.Printed)
    (htail : tail = [] ∨ ∃ rest, tail = .mark .colon :: rest) :
    ∃ m', execute m = .ok () m' ∧ m.Aside m' ∧ m'.state = m.state ∧
      m'.program.rest = tail.drop 1 := by
  have hcolon : ∀ u ∈ tail.head?, u = .mark .colon := by
    rcases htail with rfl | ⟨rest, rfl⟩ <;> simp
  obtain ⟨text, hstatement⟩ := statement_print hrest hkeyword hprinted hcolon (us ++ tail).length
  have hbehind : (m.atStatement.program.skip (us.length + 1)).rest = tail := by
    rw [Program.rest_skip, hrest]
    simp
  rw [execute_apply, if_neg (by simp [Program.atEnd_of_cons hrest]), bind_apply, hrest,
    List.length_cons, hstatement]
  dsimp only
  rcases htail with rfl | ⟨rest, rfl⟩
  · exact ⟨_, endStatement_of_nil hbehind, ⟨_, _, _, _, _, rfl⟩, rfl, hbehind⟩
  · have hpast := rest_past (m := { m.atStatement with
      program := m.atStatement.program.skip (us.length + 1) }.emit (.print text)) hbehind
    exact ⟨_, endStatement_of_colon hbehind rfl, ⟨_, _, _, _, _, rfl⟩, rfl, hpast⟩

/-- Executing a part of such a line leaves a smaller part. -/
theorem execute_print (h : PrintLine m.program.rest) (hne : m.program.rest ≠ []) :
    ∃ m', execute m = .ok () m' ∧ m.Aside m' ∧ m'.state = m.state ∧
      PrintLine m'.program.rest ∧ m'.program.rest.length < m.program.rest.length := by
  have hlength : 0 < m.program.rest.length := List.length_pos_iff.mpr hne
  have hrest : m.atStatement.program.rest =
      m.program.rest.drop (m.program.rest.takeWhile (· == .mark .colon)).length :=
    Program.rest_skip m.program _
  -- only colons are left, or a `PRINT` takes up at least its keyword
  rcases h.behindColons with hnil | ⟨t, us, tail, hcons, hkeyword, hprinted, htail⟩
  · obtain ⟨m', hend, haside, hstate, hleft⟩ := execute_of_nil (hrest.trans hnil)
    refine ⟨m', hend, haside, hstate, ?_, ?_⟩
    · rw [hleft]
      exact .nil
    · rw [hleft]
      exact hlength
  · obtain ⟨m', hend, haside, hstate, hleft⟩ := execute_of_print (hrest.trans hcons) hkeyword
      hprinted (htail.imp_right fun hmore => hmore.imp fun _ hmore => hmore.1)
    have hdrop := congrArg List.length hcons
    rw [List.length_drop] at hdrop
    refine ⟨m', hend, haside, hstate, ?_, ?_⟩
    · rw [hleft]
      rcases htail with rfl | ⟨rest, rfl, hprint⟩
      · exact .nil
      · exact hprint
    · rw [hleft]
      simp only [List.length_cons, List.length_append, List.length_drop] at hdrop ⊢
      omega

/-- While a machine is neither running nor waiting, a step does nothing. -/
theorem steps_of_stopped (h : m.Stopped) (count : Nat) : m.steps count = m := by
  induction count with
  | zero => rfl
  | succ count ih => rw [steps, step, if_pos fun hrunning => h (.inl hrunning), ih]

/-- No line comes after the immediate line. -/
theorem toStatement?_immediate (hline : m.program.location.line = .immediate)
    (hrest : m.program.rest = []) : m.toStatement? = none := by
  rw [toStatement?, if_pos (Program.atEnd_of_nil hrest), Program.advance?, hline]
  rfl

/-- A step of such a line does not fail, and changes nothing but what is shown and the place. It
ends the line or leaves a smaller part of it. -/
theorem step_print (hrunning : m.state = .running) (hline : m.program.location.line = .immediate)
    (h : PrintLine m.program.rest) :
    m.step.1 = none ∧ m.Aside m.step.2 ∧
      (m.step.2.state = .idle ∨ m.step.2.state = .running ∧ PrintLine m.step.2.program.rest ∧
        m.step.2.program.rest.length < m.program.rest.length) := by
  cases hrest : m.program.rest with
  | nil =>
    rw [step_through hrunning (toStatement?_immediate hline hrest)]
    exact ⟨rfl, .enter m .idle, .inl rfl⟩
  | cons t ts =>
    have hstart : m.toStatement? = some m := toStatement?_eq (Program.peek?_of_rest hrest)
    obtain ⟨m', hend, haside, hstate, hprint, hless⟩ := execute_print (m := m.announce)
      (by rwa [announce_program]) (by simp [hrest])
    have haside' : m.Aside m' := (Aside.announce m).trans haside
    rw [step_eq hrunning hstart, hend, endStep]
    cases hrest' : m'.program.rest with
    | nil =>
      rw [toStatement?_immediate (haside'.line.trans hline) hrest']
      exact ⟨rfl, haside'.trans (.enter m' .idle), .inl rfl⟩
    | cons t' ts' =>
      rw [toStatement?_eq (Program.peek?_of_rest hrest')]
      rw [announce_program] at hless
      refine ⟨rfl, haside', .inr ⟨?_, hprint, ?_⟩⟩
      · rw [hstate, announce_state]
        exact hrunning
      · rw [← hrest]
        exact hless

/-- While such a line is executed, nothing changes but what is shown and the place. -/
theorem steps_print (hrunning : m.state = .running) (hline : m.program.location.line = .immediate)
    (h : PrintLine m.program.rest) (count : Nat) : m.Aside (m.steps count) := by
  induction count generalizing m with
  | zero => exact .refl m
  | succ count ih =>
    obtain ⟨-, haside, hidle | ⟨hrunning', hprint, -⟩⟩ := step_print hrunning hline h
    · rw [steps, steps_of_stopped (by simp [Stopped, hidle])]
      exact haside
    · exact haside.trans (ih hrunning' (haside.line.trans hline) hprint)

/-- Such a line comes to its end. -/
theorem exists_steps_print (hrunning : m.state = .running)
    (hline : m.program.location.line = .immediate) (h : PrintLine m.program.rest) :
    ∃ count, (m.steps count).state = .idle := by
  generalize hlength : m.program.rest.length = length
  induction length using Nat.strongRecOn generalizing m with
  | ind length ih =>
    obtain ⟨-, haside, hidle | ⟨hrunning', hprint, hless⟩⟩ := step_print hrunning hline h
    · exact ⟨1, hidle⟩
    · have hline' := haside.line.trans hline
      obtain ⟨count, hidle⟩ := ih _ (hlength ▸ hless) hrunning' hline' hprint rfl
      exact ⟨count + 1, hidle⟩

/-! ### Executing such a line at once -/

theorem startImmediate_program (m : Machine) (tokens : List Token) :
    (m.startImmediate tokens).program = m.program.setImmediate tokens :=
  enter_program _ _

theorem startImmediate_state (m : Machine) (tokens : List Token) :
    (m.startImmediate tokens).state = .running :=
  enter_state _ _

theorem steps_startImmediate {tokens : List Token} (m : Machine) (h : PrintLine tokens)
    (count : Nat) :
    (m.startImmediate tokens).Aside ((m.startImmediate tokens).steps count) := by
  refine steps_print (startImmediate_state m tokens) ?_ ?_ count
  · rw [startImmediate_program]
    rfl
  · rw [startImmediate_program]
    exact h

theorem exists_steps_startImmediate {tokens : List Token} (m : Machine) (h : PrintLine tokens) :
    ∃ count, ((m.startImmediate tokens).steps count).state = .idle := by
  refine exists_steps_print (startImmediate_state m tokens) ?_ ?_
  · rw [startImmediate_program]
    rfl
  · rw [startImmediate_program]
    exact h

end Machine

end LineBasic
