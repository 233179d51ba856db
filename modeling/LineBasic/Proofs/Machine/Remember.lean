import LineBasic.Proofs.Machine.Branch
import LineBasic.Proofs.Program.Shown

/-!
# What statements remember

A machine remembers four kinds of places: where a run was broken off, where calls return to, where
loops go on, and where bodies of functions start. A statement leaves two kinds of places behind:
those that were remembered before, and new ones in front of which the line shows the statement that
they belong to.

This is shown of each statement once, for all four kinds of places and for all ends of the
statement.

## Main definitions

* `Machine.Remembered` — nothing is remembered but old places and places that show what they should
* `Machine.Remembers` — an action after which this holds
* `Machine.Behind` — a token was just passed

## Main results

* `Machine.Active.gosubStatement`, `Machine.Active.forStatement`, `Machine.Active.defStatement` —
  the statements that remember a place
* `Machine.remembers_statement` — every statement
* `Machine.remembers_execute` — and all that a step executes
-/

namespace LineBasic

namespace Machine

variable {ε α β : Type} {o : Options} {m m' m'' : Machine} {B : ε → Prop}

/-! ### Old places and places that show what they should -/

/-- The lines are those of `m`, and each place that `m'` remembers was remembered by `m` or shows on
its line the statement that it belongs to. -/
structure Remembered (m m' : Machine) : Prop where
  maxElements : m'.maxElements = m.maxElements
  lines : m'.program.lines = m.program.lines
  breakpoint : ∀ loc, m'.program.breakpoint = some loc →
    m.program.breakpoint = some loc ∨ m.program.OnLine loc
  calls : ∀ f ∈ m'.program.calls,
    f ∈ m.program.calls ∨ f.ret.line = .immediate ∨ m.program.Shows EndsGosub f.ret
  loops : ∀ l ∈ m'.program.loops,
    l ∈ m.program.loops ∨ l.resume.line = .immediate ∨ m.program.Shows EndsFor l.resume
  functions : ∀ (name : Name) (f : Function), m'.functions[name]? = some f →
    m.functions[name]? = some f ∨ m.program.Shows StartsBody f.body
  heads : ∀ (name : Name) (f : Function), m'.functions[name]? = some f →
    m.functions[name]? = some f ∨ m.program.Shows FollowsDef f.body

namespace Remembered

theorem of_sheds (hprogram : m.program.Sheds m'.program) (hfunctions : m'.functions = m.functions)
    (hmaxElements : m'.maxElements = m.maxElements) : m.Remembered m' where
  maxElements := hmaxElements
  lines := hprogram.lines
  breakpoint _ h := .inl (hprogram.breakpoint.symm.trans h)
  calls _ h := .inl (hprogram.calls h)
  loops _ h := .inl (hprogram.loops h)
  functions _ _ h := .inl (hfunctions ▸ h)
  heads _ _ h := .inl (hfunctions ▸ h)

theorem refl (m : Machine) : m.Remembered m :=
  of_sheds (.refl _) rfl rfl

theorem trans (h : m.Remembered m') (h' : m'.Remembered m'') : m.Remembered m'' where
  maxElements := h'.maxElements.trans h.maxElements
  lines := h'.lines.trans h.lines
  breakpoint loc hloc := (h'.breakpoint loc hloc).elim (h.breakpoint loc)
    fun hshows => .inr (hshows.congr h.lines.symm)
  calls f hf := (h'.calls f hf).elim (h.calls f)
    fun hshows => .inr (hshows.imp_right (·.congr h.lines.symm))
  loops l hl := (h'.loops l hl).elim (h.loops l)
    fun hshows => .inr (hshows.imp_right (·.congr h.lines.symm))
  functions name f hf := (h'.functions name f hf).elim (h.functions name f)
    fun hshows => .inr (hshows.congr h.lines.symm)
  heads name f hf := (h'.heads name f hf).elim (h.heads name f)
    fun hshows => .inr (hshows.congr h.lines.symm)

/-- Moving along the line. -/
theorem of_walked (h : m.Walked m') : m.Remembered m' := by
  refine of_sheds ?_ h.functions ?_
  · rw [h.program]
    exact ⟨rfl, rfl, List.Subset.refl _, List.Subset.refl _⟩
  · rw [h.same]

/-- A function is defined whose body starts behind its head. -/
theorem define (h : m.Remembered m') {name : Name} {f : Function}
    (hbody : m.program.Shows StartsBody f.body) (hhead : m.program.Shows FollowsDef f.body) :
    m.Remembered { m' with functions := m'.functions.insert name f } :=
  { h with
    functions := fun other g hg => by
      rw [Std.ExtTreeMap.getElem?_insert] at hg
      split at hg
      · cases hg
        exact .inr hbody
      · exact h.functions other g hg
    heads := fun other g hg => by
      rw [Std.ExtTreeMap.getElem?_insert] at hg
      split at hg
      · cases hg
        exact .inr hhead
      · exact h.heads other g hg }

end Remembered

/-- After an action, however it ends, nothing is remembered but old places and places that show what
they should. -/
def Remembers (x : EStateM ε Machine α) : Prop :=
  Leads (fun o m m' => m'.Active o ∧ m.Remembered m') (fun m _ m' => m.Remembered m') x

instance : Composes (fun o m m' => m'.Active o ∧ m.Remembered m')
    fun m (_ : ε) m' => m.Remembered m' where
  refl hm := ⟨hm, .refl _⟩
  trans h h' := ⟨h'.1, h.2.trans h'.2⟩
  active h _ := h.1
  stop h h' := h.2.trans h'

/-- Transfer of control, after which a program has shed something of `p`. -/
theorem Active.transfer (hm : m.Active o) {x : Program.Action α} {p : Program}
    (hkeeps : Concludes (fun _ => Program.Live o m.program.lines)
      (fun c q => Program.Live o m.program.lines q ∧ Cause.Ordinary c) (x m.program))
    (hopened : m.Remembered { m with program := p })
    (hsheds : Concludes (fun _ q => p.Sheds q) (fun _ q => p.Sheds q) (x m.program)) :
    Concludes (fun _ m' => m'.Active o ∧ m.Remembered m') (fun _ m' => m.Remembered m')
      (ofEval (onProgram x) m) := by
  refine concludes_ofEval (concludes_onProgram ((hkeeps.and hsheds).mono ?_ ?_))
  · exact fun _ q h => ⟨hm.withProgram h.1, hopened.trans (.of_sheds h.2 rfl rfl)⟩
  · exact fun _ q h => hopened.trans (.of_sheds h.2 rfl rfl)

namespace Remembers

theorem fail (c : Cause) : Remembers (Machine.fail c : Exec α) :=
  .throw fun _ => .refl _

/-- Parts that move along the line. -/
theorem of_wanders {x : EStateM ε Machine α} (h : Wanders B x) : Remembers x :=
  h.mono (fun _ _ _ hm h => ⟨hm.walked h, .of_walked h⟩) fun _ _ _ h => .of_walked h.1

theorem ofEval {x : Eval α} (h : Remembers x) : Remembers (Machine.ofEval x) :=
  Leads.lift h

/-- Storing a value and showing something. -/
theorem modify {f : Machine → Machine} (hf : ∀ m, ∃ scalars arrays output prompt,
    f m = { m with scalars, arrays, output, prompt }) :
    Remembers (modify f : EStateM ε Machine Unit) := by
  refine Leads.modify fun {o m} hm => ?_
  obtain ⟨scalars, arrays, output, prompt, hfm⟩ := hf m
  rw [hfm]
  exact ⟨hm.congr rfl rfl rfl, .of_sheds (.refl _) rfl rfl⟩

/-- Transfer of control. -/
theorem flow {x : Program.Action α} (hlive : ∀ o L, Keeps (Program.Live o L) Cause.Ordinary x)
    (hsheds : Program.Shedding x) : Remembers (Machine.ofEval (onProgram x)) :=
  fun o m hm => hm.transfer (hlive o _ _ hm.program) (.refl m) (hsheds m.program)

end Remembers

/-! ### Parts of statements -/

theorem remembers_setVariable (name : Name) (v : Value) :
    Remembers (ofEval (setVariable name v)) :=
  .ofEval (.modify fun _ => ⟨_, _, _, _, rfl⟩)

theorem remembers_assign (t : Target) (v : Value) : Remembers (ofEval (assign t v)) :=
  .ofEval (.assign (fun h => Remembers.of_wanders (.of_walks h))
    (fun _ _ => Remembers.modify fun _ => ⟨_, _, _, _, rfl⟩)
    fun _ _ => Remembers.modify fun _ => ⟨_, _, _, _, rfl⟩)

/-- The parts of statements that read the line only move along it. -/
theorem execRules_remembers : ExecRules (fun _ => True) fun _ => Remembers where
  toReadRules := readRules_wanders.mono .of_wanders .bind fun hf => .get_bind fun m => hf m trivial
  assign := remembers_assign
  emit _ := .modify fun _ => ⟨_, _, _, _, rfl⟩
  ask _ := .modify fun _ => ⟨_, _, _, _, rfl⟩

/-! ### Statements that stay on the line -/

theorem remembers_dimStatement : Remembers dimStatement :=
  execRules_remembers.dimStatement
    (execRules_remembers.dimItem fun _ _ => .modify fun _ => ⟨_, _, _, _, rfl⟩)

theorem remembers_printStatement : Remembers printStatement :=
  execRules_remembers.printStatement

/-! ### `INPUT` -/

/-- An `INPUT` that waits has gone back on its line. -/
theorem remembers_suspend (prompt : Bytes) : Remembers (suspend prompt) := by
  intro o m _
  refine Concludes.bind (x := ofEval (onProgram (Program.rewindBefore (.keyword .INPUT))))
    (Q := fun _ m' => ∃ i, m' = { m with program := m.program.atIndex i })
    (concludes_ofEval (concludes_onProgram ?_)) ?_
  · rw [Program.rewindBefore]
    split
    · exact .refl m
    · rw [Program.rewindBefore?]
      cases Program.lastBefore? m.program.current (.keyword .INPUT) m.program.location.index with
      | none => exact ⟨_, rfl⟩
      | some i => exact ⟨i, rfl⟩
  · rintro found _ ⟨i, rfl⟩
    have hback : ∀ prompt, m.Remembered { m with program := m.program.atIndex i, prompt } :=
      fun _ => .of_sheds ⟨rfl, rfl, List.Subset.refl _, List.Subset.refl _⟩ rfl rfl
    cases found with
    | false => exact hback m.prompt
    | true => exact hback prompt

theorem remembers_endBranch (keyword : Location) : Remembers (endBranch keyword) := by
  refine .get_bind fun m => ?_
  split
  · intro o m hm
    exact ⟨(hm.withProgram (hm.program.atIndex (Nat.le_refl _))).congr rfl rfl rfl,
      .of_sheds ⟨rfl, rfl, List.Subset.refl _, List.Subset.refl _⟩ rfl rfl⟩
  · exact .pure ()

theorem remembers_inputStatement : Remembers inputStatement :=
  execRules_remembers.inputStatement
    (fun _ _ hm => ⟨hm.congr rfl rfl rfl, .of_sheds (.refl _) rfl rfl⟩)
    (fun _ _ _ => remembers_endBranch _) remembers_suspend

/-! ### Jumps and branches -/

theorem remembers_goTo (n : Nat) : Remembers (ofEval (onProgram (Program.goTo n))) :=
  .flow (fun _ _ => Program.keeps_goTo n) (Program.shedding_goTo n)

theorem remembers_aloneOnLine {statement : Exec Unit} (h : Remembers statement) :
    Remembers (aloneOnLine statement) := fun o m hm =>
  concludes_aloneOnLine (h o m hm)
    (fun _ h' => ⟨h'.1.withProgram (h'.1.program.atIndex (Nat.le_refl _)),
      h'.2.trans (.of_sheds ⟨rfl, rfl, List.Subset.refl _, List.Subset.refl _⟩ rfl rfl)⟩)
    fun _ h' => h'.trans (.of_sheds (.refl _) rfl rfl)

/-! ### Loops and data -/

theorem remembers_nextLoop (name : Name) : Remembers (nextLoop name) :=
  execRules_remembers.nextLoop
    (fun value => .flow (fun _ _ => Program.keeps_endLoop name value)
      (Program.shedding_endLoop name value))
    fun x => remembers_setVariable name (.num x)

theorem remembers_readItem : Remembers readItem :=
  execRules_remembers.readItem
    (.flow (fun _ _ => Program.keeps_nextDatum) Program.shedding_nextDatum) fun _ => .fail _

/-! ### Statements that remember a place -/

/-- A token was just passed. -/
def Behind (m : Machine) (t : Token) : Prop :=
  ∃ k, m.program.location.index = k + 1 ∧ m.program.current[k]? = some t

/-- One part that moves along the line after others that have done so from `m`, in front of a part
that may do more. -/
theorem Walked.andThen {x : EStateM ε Machine α} {f : α → EStateM ε Machine β}
    {R : α → Machine → Prop} (h : m.Walked m')
    (hx : Concludes (fun a m'' => m'.Walked m'' ∧ R a m'') (fun _ m'' => m'.Walked m'') (x m'))
    (hf : ∀ a m'', m.Walked m'' → R a m'' →
      Concludes (fun _ m' => m'.Active o ∧ m.Remembered m') (fun _ m' => m.Remembered m')
        (f a m'')) :
    Concludes (fun _ m' => m'.Active o ∧ m.Remembered m') (fun _ m' => m.Remembered m')
      ((x >>= f) m') := by
  refine Concludes.bind (Q := fun a m'' => m.Walked m'' ∧ R a m'') ?_
    fun a m'' h' => hf a m'' h'.1 h'.2
  exact hx.mono (fun _ _ h' => ⟨h.trans h'.1, h'.2⟩) fun _ _ h' => .of_walked (h.trans h')

theorem concludes_nextName (hm : m.Active o) :
    Concludes
      (fun name m' => m.Walked m' ∧
        m'.program.location.index = m.program.location.index + 1 ∧
        m.program.current[m.program.location.index]? = some (.symbol name))
      (fun _ m' => m.Walked m') (nextName m) := by
  refine concludes_ofEval (concludes_onProgram ?_)
  rw [Program.nextName]
  split
  · next hpeek => exact ⟨.skip hpeek, rfl, hpeek⟩
  · next hpeek => exact .skip hpeek
  · exact .refl hm.program.index

theorem concludes_expect (hm : m.Active o) (k : Token.Kind) :
    Concludes
      (fun _ m' => m.Walked m' ∧
        m'.program.location.index = m.program.location.index + 1 ∧
        m.program.peekKind? = some k)
      (fun _ m' => m.Walked m') (expect k m) := by
  refine concludes_ofEval (concludes_onProgram ?_)
  rw [Program.expect]
  cases hkind : m.program.peekKind? with
  | none => exact .refl hm.program.index
  | some k' =>
    obtain ⟨t, hpeek, -⟩ := Option.map_eq_some_iff.mp hkind
    dsimp only
    split
    · next heq => exact ⟨.skip hpeek, rfl, congrArg some heq⟩
    · exact .refl hm.program.index

/-- The expression at the location is whole if it has a value. -/
theorem concludes_numberExpression (hm : m.Active o) :
    Concludes
      (fun _ m' => m.Walked m' ∧
        Spans m.program.current m.program.location.index m'.program.location.index)
      (fun _ m' => m.Walked m') (ofEval numberExpression m) := by
  have hexpression : Concludes
      (fun _ m' => m.Walked m' ∧
        Spans m.program.current m.program.location.index m'.program.location.index)
      (fun _ m' => m.Walked m') (expression m) := by
    have hwalks := hm.fit.expression hm.program.index
    cases hend : expression m with
    | error c m' =>
      rw [hend] at hwalks
      exact hwalks.1
    | ok v m' =>
      rw [hend] at hwalks
      rw [expression, get_bind_apply] at hend
      exact ⟨hwalks.1, Expr.whole_of_evalWith _ hend, hwalks.2⟩
  refine concludes_ofEval (hexpression.bind fun v m' h => ?_)
  cases hv : v.number with
  | ok x => exact h
  | error c => exact h.1

theorem concludes_expectStatementEnd (m : Machine) :
    Concludes
      (fun _ m' => m' = m ∧ ∀ t, m.program.peek? = some t → t.endsStatement = true)
      (fun _ m' => m' = m) (expectStatementEnd m) := by
  rw [expectStatementEnd, get_bind_apply]
  cases hend : m.program.atStatementEnd with
  | false => exact rfl
  | true =>
    refine ⟨rfl, fun t hpeek => ?_⟩
    rw [Program.atStatementEnd, hpeek] at hend
    exact hend

/-- A call comes back behind the `GOSUB`. -/
theorem Active.gosub (hm : m.Active o)
    (hends : EndsGosub m.program.current m.program.location.index) (n : Nat) :
    Concludes (fun _ m' => m'.Active o ∧ m.Remembered m') (fun _ m' => m.Remembered m')
      (ofEval (onProgram (Program.gosub n)) m) := by
  have hpushed : m.Remembered { m with
      program := { m.program with calls := .gosub m.program.location :: m.program.calls } } :=
    { Remembered.refl m with
      calls := List.forall_mem_cons.mpr
        ⟨.inr (hm.program.synced.shows hends), fun _ hf => .inl hf⟩ }
  exact hm.transfer (Program.keeps_gosub n _ hm.program) hpushed (Program.sheds_gosub n _)

/-- A loop goes on behind the `FOR`. -/
theorem Active.startLoop (hm : m.Active o)
    (hends : EndsFor m.program.current m.program.location.index) {name : Name}
    (hname : name.isString = false) (limit step : Float) :
    Concludes (fun _ m' => m'.Active o ∧ m.Remembered m') (fun _ m' => m.Remembered m')
      (ofEval (onProgram (Program.startLoop name limit step)) m) := by
  have hpushed : m.Remembered { m with
      program := { m.program with
        loops := ⟨m.program.location, name, limit, step⟩ :: m.program.loops } } :=
    { Remembered.refl m with
      loops := List.forall_mem_cons.mpr
        ⟨.inr (hm.program.synced.shows hends), fun _ hl => .inl hl⟩ }
  exact hm.transfer (Program.keeps_startLoop hname limit step _ hm.program) hpushed
    (Program.sheds_startLoop name limit step _)

theorem Active.gosubStatement (hm : m.Active o) (hbehind : m.Behind (.keyword .GOSUB)) :
    Concludes (fun _ m' => m'.Active o ∧ m.Remembered m') (fun _ m' => m.Remembered m')
      (gosubStatement m) := by
  obtain ⟨k, hk, hkeyword⟩ := hbehind
  refine (Walked.refl hm.program.index).andThen (concludes_numberExpression hm)
    fun x m₁ h₁ hspans => ?_
  have hends : EndsGosub m₁.program.current m₁.program.location.index := by
    rw [h₁.current]
    exact ⟨k, hkeyword, hk ▸ hspans⟩
  refine Concludes.bind (x := ofEval (ofExcept (Number.lineNumber x))) (Q := fun _ m' => m' = m₁)
    ?_ ?_
  · cases Number.lineNumber x with
    | ok n => rfl
    | error c => exact .of_walked h₁
  · rintro n _ rfl
    exact ((hm.walked h₁).gosub hends n).mono
      (fun _ _ h => ⟨h.1, (Remembered.of_walked h₁).trans h.2⟩)
      fun _ _ h => (Remembered.of_walked h₁).trans h

/-- Where the statement must end, the loop goes on. -/
theorem Active.beginLoop {name : Name} (hm : m.Active o) (h : m.Walked m')
    (hnumeric : ¬name.isString = true)
    (hends : (∀ t, m'.program.peek? = some t → t.endsStatement = true) →
      EndsFor m'.program.current m'.program.location.index) (start limit step : Float) :
    Concludes (fun _ m' => m'.Active o ∧ m.Remembered m') (fun _ m' => m.Remembered m')
      ((do
        expectStatementEnd
        setVariable name (.num start)
        Program.startLoop name limit step : Exec Unit) m') := by
  refine Concludes.bind (Q := fun _ m₁ => m₁ = m' ∧
    ∀ t, m'.program.peek? = some t → t.endsStatement = true)
    ((concludes_expectStatementEnd m').mono (fun _ _ h => h) ?_) ?_
  · rintro _ m₁ hsame
    rw [hsame]
    exact .of_walked h
  · rintro _ m₁ ⟨hsame, hend⟩
    rw [hsame]
    have hset : ({ m' with scalars := m'.scalars.insert name (.num start) } : Machine).Active o :=
      (hm.walked h).congr rfl rfl rfl
    have hkept : m.Remembered { m' with scalars := m'.scalars.insert name (.num start) } :=
      (Remembered.of_walked h).trans (.of_sheds (.refl _) rfl rfl)
    exact (hset.startLoop (hends hend) (Bool.eq_false_iff.mpr hnumeric) limit step).mono
      (fun _ _ h => ⟨h.1, hkept.trans h.2⟩) fun _ _ h => hkept.trans h

theorem Active.forStatement (hm : m.Active o) (hbehind : m.Behind (.keyword .FOR)) :
    Concludes (fun _ m' => m'.Active o ∧ m.Remembered m') (fun _ m' => m.Remembered m')
      (forStatement m) := by
  obtain ⟨k, hk, hkeyword⟩ := hbehind
  refine (Walked.refl hm.program.index).andThen (concludes_nextName hm)
    fun name m₁ h₁ ⟨hi₁, hname⟩ => ?_
  dsimp only
  split
  · exact .of_walked h₁
  · next hnumeric =>
    refine h₁.andThen (concludes_expect (hm.walked h₁) _) fun _ m₂ h₂ ⟨hi₂, hequal⟩ => ?_
    refine h₂.andThen (concludes_numberExpression (hm.walked h₂)) fun start m₃ h₃ hstart => ?_
    refine h₃.andThen (concludes_expect (hm.walked h₃) _) fun _ m₄ h₄ ⟨hi₄, hto⟩ => ?_
    refine h₄.andThen (concludes_numberExpression (hm.walked h₄)) fun limit m₅ h₅ hlimit => ?_
    have hequal := Program.peek?_of_peekKind?_mark hequal
    have hto := Program.peek?_of_peekKind? hto
    rw [Program.peek?, h₁.current] at hequal
    rw [Program.peek?, h₃.current] at hto
    rw [h₂.current] at hstart
    rw [h₄.current] at hlimit
    rw [hk] at hname hi₁
    rw [hi₁] at hequal hi₂
    rw [hi₂] at hstart
    rw [hi₄] at hlimit
    have hloop : ∀ step m₆, m.Walked m₆ →
        (m₆.program.location.index = m₅.program.location.index ∨
          m.program.current[m₅.program.location.index]? = some (.keyword .STEP) ∧
            Spans m.program.current (m₅.program.location.index + 1)
              m₆.program.location.index) →
        Concludes (fun _ m' => m'.Active o ∧ m.Remembered m') (fun _ m' => m.Remembered m')
          ((do
            expectStatementEnd
            setVariable name (.num start)
            Program.startLoop name limit step : Exec Unit) m₆) := by
      intro step m₆ h₆ hstep
      refine hm.beginLoop h₆ hnumeric (fun hend => ?_) start limit step
      rw [Program.peek?, h₆.current] at hend
      rw [h₆.current]
      exact ⟨k, name, _, _, hkeyword, hname, hequal, hstart, hto, hlimit, hstep, hend⟩
    rw [bind_apply, accept_apply]
    by_cases hkind : m₅.program.peekKind? = some (.keyword .STEP)
    · have hpeek := Program.peek?_of_peekKind? hkind
      have h₆ := h₅.trans (.skip hpeek)
      rw [Program.peek?, h₅.current] at hpeek
      rw [if_pos hkind]
      refine h₆.andThen (concludes_numberExpression (hm.walked h₆)) fun step m₇ h₇ hspans => ?_
      rw [h₆.current] at hspans
      exact hloop step m₇ h₇ (.inr ⟨hpeek, hspans⟩)
    · rw [if_neg hkind]
      exact hloop 1 m₅ h₅ (.inl rfl)

/-- A mark that is next after moving along the line is one of the line. -/
theorem Walked.mark_ahead (h : m.Walked m') {k : Mark}
    (hkind : m'.program.peekKind? = some (.mark k)) :
    m.program.current[m'.program.location.index]? = some (.mark k) := by
  rw [← h.current]
  exact Program.peek?_of_peekKind?_mark hkind

/-- A function whose body starts at the location is stored, and the rest of its statement is
skipped. -/
theorem Active.defineHere (hm : m.Active o) (h : m.Walked m') {n : Nat}
    (hline : m.program.location.line = .numbered n) (hend : m'.program.atStatementEnd = false)
    (hbody : StartsBody m'.program.current m'.program.location.index)
    (hhead : FollowsDef m'.program.current m'.program.location.index) (name first : Name)
    (others : List Name) :
    Concludes (fun _ m' => m'.Active o ∧ m.Remembered m') (fun _ m' => m.Remembered m')
      ((modifyProgram Program.skipStatement : Exec Unit)
        { m' with
          functions := m'.functions.insert name ⟨first, others, m'.program.location⟩ }) := by
  have hm' := hm.walked h
  have hline' : m'.program.location.line = .numbered n := by
    rw [h.program]
    exact hline
  have hstored : ∀ {P : List Token → Nat → Prop},
      P m'.program.current m'.program.location.index → m.program.Shows P m'.program.location := by
    intro P hP
    refine (hm'.program.synced.shows hP).elim (fun himmediate => ?_)
      (·.congr (by rw [h.program]; rfl))
    rw [hline'] at himmediate
    cases himmediate
  have hdefined : m.Remembered { m' with
      functions := m'.functions.insert name ⟨first, others, m'.program.location⟩ } :=
    (Remembered.of_walked h).define (hstored hbody) (hstored hhead)
  have hskip : Remembers (modifyProgram Program.skipStatement) :=
    .of_wanders wanders_skipStatement
  exact (hskip o _ (hm'.define hline' hend name first others)).mono
    (fun _ _ h => ⟨h.1, hdefined.trans h.2⟩) fun _ _ h => hdefined.trans h

/-- The body of a function starts behind the equals sign, in the same statement as its `DEF`. -/
theorem Active.defStatement (hm : m.Active o) (hbehind : m.Behind (.keyword .DEF)) :
    Concludes (fun _ m' => m'.Active o ∧ m.Remembered m') (fun _ m' => m.Remembered m')
      (defStatement m) := by
  obtain ⟨k, hk, hkeyword⟩ := hbehind
  rw [Machine.defStatement, get_bind_apply]
  cases hline : m.program.location.line with
  | immediate => exact .refl m
  | numbered n =>
    have hstart : Inside m.program.current (k + 1) m.program.location.index := hk ▸ .refl _ _
    refine (Walked.refl hm.program.index).andThen (concludes_nextName hm) fun name m₁ h₁ hr₁ => ?_
    have hin₁ := hstart.next hr₁.1 hr₁.2 rfl
    refine h₁.andThen (concludes_expect (hm.walked h₁) _) fun _ m₂ h₂ hr₂ => ?_
    have hin₂ := hin₁.next hr₂.1 (h₁.mark_ahead hr₂.2) rfl
    refine h₂.andThen (concludes_nextName (hm.walked h₂)) fun first m₃ h₃ hr₃ => ?_
    have hin₃ := hin₂.next hr₃.1 (h₂.current ▸ hr₃.2) rfl
    rw [get_bind_apply]
    refine h₃.andThen (R := fun _ m' =>
      Inside m₃.program.current m₃.program.location.index m'.program.location.index) ?_
      fun others m₄ h₄ hr₄ => ?_
    · exact ((readRules_wanders.moreNames _ o m₃ (hm.walked h₃)).and
        (readRules_treads.moreNames _ o m₃ (hm.walked h₃))).mono (fun _ _ h => ⟨h.1, h.2.inside⟩)
        fun _ _ h => h.1.1
    have hin₄ := hin₃.trans (h₃.current ▸ hr₄)
    refine h₄.andThen (concludes_expect (hm.walked h₄) _) fun _ m₅ h₅ hr₅ => ?_
    have hin₅ := hin₄.next hr₅.1 (h₄.mark_ahead hr₅.2) rfl
    refine h₅.andThen (concludes_expect (hm.walked h₅) _) fun _ m₆ h₆ hr₆ => ?_
    have hequal := h₅.mark_ahead hr₆.2
    have hin₆ := hin₅.next hr₆.1 hequal rfl
    rw [← h₆.current] at hequal hin₆ hkeyword
    rw [get_bind_apply]
    cases hend : m₆.program.atStatementEnd with
    | true => exact .of_walked h₆
    | false =>
      have hbefore : k < m₆.program.location.index := by
        have hforward := h₆.forward
        omega
      exact hm.defineHere h₆ hline hend ⟨index_lt_of_atStatementEnd hend, _, hr₆.1, hequal⟩
        ⟨k, hbefore, hkeyword, hin₆⟩ name first others

/-! ### Every statement -/

/-- Every statement, by induction on the tokens left: an `IF` executes another statement further
right. -/
theorem remembers_statement (tokens : Nat) : Remembers (statement tokens) := by
  have hrules := execRules_remembers
  induction tokens with
  | zero => exact .fail _
  | succ tokens ih =>
    intro o m hm
    rw [statement, get_bind_apply]
    generalize hpeek : m.program.peek? = peeked
    split
    · exact .refl m
    · exact hrules.letStatement o m hm
    · next t _ =>
      have hskipped : m.Walked { m with program := m.program.skip 1 } := .skip hpeek
      refine Concludes.bind (x := modifyProgram (·.skip 1))
        (Q := fun _ m' => m' = { m with program := m.program.skip 1 }) ?_ ?_
      · exact rfl
      rintro _ _ rfl
      -- the keyword was just passed
      have hbehind : ({ m with program := m.program.skip 1 } : Machine).Behind t :=
        ⟨m.program.location.index, rfl, hpeek⟩
      have hm' := hm.walked hskipped
      refine Concludes.mono (Q := fun _ m' => m'.Active o ∧
          ({ m with program := m.program.skip 1 } : Machine).Remembered m')
        (E := fun _ m' => ({ m with program := m.program.skip 1 } : Machine).Remembered m') ?_
        (fun _ _ h => ⟨h.1, (Remembered.of_walked hskipped).trans h.2⟩)
        fun _ _ h => (Remembered.of_walked hskipped).trans h
      split
      · exact ⟨hm', .refl _⟩
      · exact ⟨hm', .refl _⟩
      · exact ⟨hm', .refl _⟩
      · exact Remembers.of_wanders wanders_discardRest o _ hm'
      · exact hrules.letStatement o _ hm'
      · exact remembers_dimStatement o _ hm'
      · exact remembers_printStatement o _ hm'
      · exact remembers_printStatement o _ hm'
      · exact remembers_inputStatement o _ hm'
      · exact hrules.ifStatement
          (hrules.chooseBranch (.of_wanders (wanders_accept _).ofEval)
            (.of_wanders wanders_skipBranch))
          (hrules.branch remembers_goTo (remembers_aloneOnLine ih)) o _ hm'
      · exact hrules.gotoStatement remembers_goTo o _ hm'
      · exact hm'.gosubStatement hbehind
      · exact Remembers.flow (fun _ _ => Program.keeps_returnFromGosub)
          Program.shedding_returnFromGosub o _ hm'
      · exact .refl _
      · exact .refl _
      · exact hm'.forStatement hbehind
      · exact hrules.nextStatement remembers_nextLoop o _ hm'
      · exact ⟨hm'.withProgram { hm'.program with synced := hm'.program.synced },
          .of_sheds ⟨rfl, rfl, List.Subset.refl _, List.Subset.refl _⟩ rfl rfl⟩
      · exact hm'.defStatement hbehind
      · exact hrules.items remembers_readItem o _ hm'
      · exact .refl _

theorem remembers_execute : Remembers execute := by
  refine (Remembers.of_wanders (.moveAlong fun _ hp =>
    ⟨_, rfl, Nat.le_add_right _ _, length_takeWhile_rest_le hp _⟩)).bind fun _ => ?_
  refine .get_bind fun m => ?_
  split
  · exact .pure ()
  · have hclear : Remembers (modifyProgram Program.clearJumped) := fun o m hm =>
      ⟨hm.withProgram (hm.program.withJumped false),
        .of_sheds ⟨rfl, rfl, List.Subset.refl _, List.Subset.refl _⟩ rfl rfl⟩
    refine hclear.bind fun _ => .get_bind fun m => ?_
    exact (remembers_statement _).bind fun _ =>
      execRules_remembers.endStatement (.of_wanders (wanders_accept _).ofEval)
        (.of_wanders wanders_discardRest)

end Machine

end LineBasic
