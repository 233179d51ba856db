import LineBasic.Proofs.Machine.MidStatement

/-!
# How a statement leaves its line

A statement that ends normally has gone on to what follows it, has dropped the rest of its line, or
has transferred control. What it does not concern is as before, and that includes all places that
pending calls and loops go back to, except for the one that a `GOSUB` or `FOR` opens itself.

## Main definitions

* `Machine.Leaves` — what a statement that ends normally does to the machine

## Main results

* `Machine.target_scalar`, `Machine.target_element` — the target behind the tokens of its name
* `Machine.Stays.leaves` — statements that do not transfer control
* `Machine.leaves_gosubStatement`, `Machine.leaves_forStatement` and others — statements that do
-/

namespace LineBasic.Machine

variable {α : Type} {o : Options} {n m : Machine}

/-! ### Behind a token -/

theorem rest_past {t : Token} {ts : List Token} (h : m.program.rest = t :: ts) :
    m.past.program.rest = ts := by
  rw [past, Program.rest_skip, h]
  rfl

theorem nextName_of_rest {name : Name} {ts : List Token}
    (h : m.program.rest = .symbol name :: ts) :
    onProgram Program.nextName m = .ok name m.past := by
  rw [onProgram, Program.nextName, Program.peek?_of_rest h]
  rfl

theorem expect_of_rest {t : Token} {ts : List Token} {k : Token.Kind}
    (hrest : m.program.rest = t :: ts) (ht : t.kind = k) : expect k m = .ok () m.past := by
  have hkind : m.program.peekKind? = some k := by
    rw [Program.peekKind?, Program.peek?_of_rest hrest, Option.map_some, ht]
  rw [expect, ofEval, onProgram, Program.expect, hkind]
  simp only [if_pos]
  rfl

theorem accept_lparen (m : Machine) :
    onProgram (Program.accept (.mark .lparen)) m =
      if m.program.rest.head? = some (.mark .lparen) then .ok true m.past else .ok false m := by
  have hkind : m.program.peekKind? = some (.mark .lparen) ↔
      m.program.rest.head? = some (.mark .lparen) := by
    rw [← Program.peek?_eq_head?]
    refine ⟨Program.peek?_of_peekKind?_mark, fun hpeek => ?_⟩
    rw [Program.peekKind?, hpeek]
    rfl
  rw [onProgram, Program.accept]
  by_cases hhead : m.program.rest.head? = some (.mark .lparen)
  · rw [if_pos hhead, if_pos (hkind.mpr hhead)]
    rfl
  · rw [if_neg hhead, if_neg fun hpeek => hhead (hkind.mp hpeek)]

/-- A name is a target of its own when no parenthesis comes behind it. -/
theorem target_scalar {name : Name} {ts : List Token} (h : m.program.rest = .symbol name :: ts)
    (hts : ts.head? ≠ some (.mark .lparen)) : target m = .ok (.scalar name) m.past := by
  change (onProgram Program.nextName >>= _) m = _
  rw [bind_apply, nextName_of_rest h]
  change (onProgram (Program.accept (.mark .lparen)) >>= _) m.past = _
  rw [bind_apply, accept_lparen, rest_past h, if_neg hts]
  rfl

/-- Behind a parenthesis the subscripts of an element are read. -/
theorem target_element {name : Name} {ts : List Token}
    (h : m.program.rest = .symbol name :: .mark .lparen :: ts) :
    target m = (subscripts >>= fun index => pure (.element name index)) m.past.past := by
  change (onProgram Program.nextName >>= _) m = _
  rw [bind_apply, nextName_of_rest h]
  change (onProgram (Program.accept (.mark .lparen)) >>= _) m.past = _
  rw [bind_apply, accept_lparen, rest_past h, if_pos List.head?_cons]
  rfl

/-! ### What a statement does -/

/-- What a statement that started at `n` and has ended normally did to the machine. -/
structure Leaves (n m : Machine) : Prop where
  kept : n.program.Kept m.program
  goes : n.program.Goes m.program
  reply : m.reply = n.reply
  branchInput : m.branchInput = n.branchInput

namespace Within

/-- In the middle of a statement, no place is remembered that was not remembered before. -/
theorem resumes (h : n.Within m) {loc : Location} (hm : m.program.Resumes loc) :
    n.program.Resumes loc := by
  refine hm.mono ?_ h.loops.subset
  rw [h.program]
  exact List.Subset.refl _

/-- What a statement leaves alone when it transfers control from its middle. -/
theorem kept (h : n.past.Within m) {q : Program} (hlines : q.lines = m.program.lines)
    (himmediate : q.immediate = m.program.immediate)
    (hbreakpoint : q.breakpoint = m.program.breakpoint)
    (hresumes : ∀ loc, q.Resumes loc → m.program.Resumes loc ∨ n.program.Opens loc) :
    n.program.Kept q where
  lines := by
    rw [hlines, h.program]
    rfl
  immediate := by
    rw [himmediate, h.program]
    rfl
  breakpoint := by
    rw [hbreakpoint, h.program]
    rfl
  resumes loc hloc := (hresumes loc hloc).imp_left h.resumes

/-- A statement may end in its middle. -/
theorem leaves (h : n.past.Within m) (hkeyword : n.program.peek? ≠ some (.keyword .IF)) :
    n.Leaves m where
  kept := h.kept rfl rfl rfl fun _ hloc => .inl hloc
  goes := by
    refine .onward h.line h.current ?_ ⟨Nat.le_of_succ_le h.forward, .inl ⟨hkeyword, h.inside⟩⟩
    rw [h.program]
    rfl
  reply := h.reply
  branchInput := h.branchInput

end Within

/-! ### Statements that do not transfer control -/

theorem Stays.leaves {x : Exec Unit} (hx : Stays Stop.IsFault x) (hn : n.past.Active o)
    (hkeyword : n.program.peek? ≠ some (.keyword .IF)) :
    Concludes (fun _ m => n.Leaves m) (fun e _ => e.IsFault) (x n.past) :=
  (hx o n.past hn).mono (fun _ _ h => h.leaves hkeyword) fun _ _ he => he

/-- An assignment without its keyword starts with its name. -/
theorem leaves_assignment (hn : n.Active o) {name : Name}
    (hname : n.program.peek? = some (.symbol name)) :
    Concludes (fun _ m => n.Leaves m) (fun e _ => e.IsFault) (letStatement n) := by
  refine (execRules_stays.letStatement o n hn).mono (fun _ m h => ?_) fun _ _ he => he
  have hkeyword : n.program.peek? ≠ some (.keyword .IF) := by
    rw [hname]
    nofun
  refine ⟨⟨?_, ?_, ?_, fun loc hloc => .inl (h.resumes hloc)⟩, ?_, h.reply, h.branchInput⟩
  · rw [h.program]
  · rw [h.program]
  · rw [h.program]
  · have hinside : Inside n.program.current (n.program.location.index + 1)
        m.program.location.index := fun i t hi => h.inside i t (by omega)
    refine .onward h.line h.current ?_ ⟨h.forward, .inl ⟨hkeyword, hinside⟩⟩
    rw [h.program]

/-- An `ELSE` in the place of a statement drops the rest of the line. -/
theorem leaves_discardRest (hn : n.past.Active o) :
    Concludes (fun _ m => n.Leaves m) (fun e _ => e.IsFault)
      (modifyProgram Program.discardRest n.past) :=
  ⟨(Within.refl hn.program.index).kept rfl rfl rfl fun _ hloc => .inl hloc,
    .dropped rfl rfl rfl, rfl, rfl⟩

/-! ### Jumps and subroutines -/

/-- Transfer of control from the middle of a statement. -/
theorem concludes_flow {x : Program.Action α} {P : α → Program → Prop} {Q : α → Machine → Prop}
    (hx : Concludes P (fun _ _ => True) (x m.program))
    (hQ : ∀ a q, P a q → Q a { m with program := q }) :
    Concludes Q (fun e _ => e.IsFault) (ofEval (onProgram x) m) :=
  concludes_ofEval (concludes_onProgram (hx.mono hQ fun _ _ _ => trivial))

theorem leaves_goToNumber (hn : n.past.Active o) (h : n.past.Within m) (x : Float) :
    Concludes
      (fun _ m => n.Leaves m ∧ m.program.jumped = true ∧ m.program.location.index = 0)
      (fun e _ => e.IsFault) (goToNumber x m) := by
  refine (Stays.tread (.ofExcept _)).andThen hn h (fun _ _ he => he) fun line m₁ h₁ => ?_
  refine concludes_flow (Program.concludes_goTo line m₁.program) ?_
  rintro _ q ⟨tokens, rfl⟩
  exact ⟨⟨h₁.kept rfl rfl rfl fun _ hloc => .inl hloc, .start rfl rfl, h₁.reply, h₁.branchInput⟩,
    rfl, rfl⟩

theorem leaves_gotoStatement (hn : n.past.Active o) :
    Concludes (fun _ m => n.Leaves m) (fun e _ => e.IsFault) (gotoStatement n.past) :=
  (Stays.tread treads_numberExpression).andThen hn (.refl hn.program.index) (fun _ _ he => he)
    fun x _ h => (leaves_goToNumber hn h x).mono (fun _ _ h' => h'.1) fun _ _ he => he

theorem leaves_gosubStatement (hn : n.past.Active o)
    (hkeyword : n.program.peek? = some (.keyword .GOSUB)) :
    Concludes (fun _ m => n.Leaves m) (fun e _ => e.IsFault) (gosubStatement n.past) := by
  refine (Stays.tread treads_numberExpression).andThen hn (.refl hn.program.index)
    (fun _ _ he => he) fun x m₁ h₁ => ?_
  refine (Stays.tread (.ofExcept _)).andThen hn h₁ (fun _ _ he => he) fun line m₂ h₂ => ?_
  refine concludes_flow (Program.concludes_gosub line m₂.program) ?_
  rintro _ q ⟨tokens, rfl⟩
  refine ⟨h₂.kept rfl rfl rfl fun loc hloc => ?_, .start rfl rfl, h₂.reply, h₂.branchInput⟩
  rcases hloc with ⟨f, hf, rfl⟩ | hloop
  · rcases List.mem_cons.mp hf with rfl | hf
    · exact .inr ⟨.inl hkeyword, h₂.line, h₂.forward, h₂.inside⟩
    · exact .inl (.inl ⟨f, hf, rfl⟩)
  · exact .inl (.inr hloop)

theorem leaves_returnFromGosub (hn : n.past.Active o) :
    Concludes (fun _ m => n.Leaves m) (fun e _ => e.IsFault)
      (ofEval (onProgram Program.returnFromGosub) n.past) := by
  have h := Within.refl hn.program.index
  refine concludes_flow (Program.concludes_returnFromGosub n.past.program) ?_
  rintro _ q ⟨ret, calls, tokens, hcalls, rfl⟩
  refine ⟨h.kept rfl rfl rfl fun loc hloc => .inl ?_, ?_, rfl, rfl⟩
  · refine hloc.mono ?_ (List.Subset.refl _)
    rw [hcalls]
    exact List.subset_cons_self _ _
  · refine .back ret rfl (.inl ⟨.gosub ret, ?_, rfl⟩) rfl
    rw [show n.program.calls = .gosub ret :: calls from hcalls]
    exact List.mem_cons_self

/-! ### Loops -/

theorem leaves_forStatement (hn : n.past.Active o)
    (hkeyword : n.program.peek? = some (.keyword .FOR)) :
    Concludes (fun _ m => n.Leaves m) (fun e _ => e.IsFault) (forStatement n.past) := by
  refine (Stays.tread treads_nextName).andThen hn (.refl hn.program.index) (fun _ _ he => he)
    fun name m₁ h₁ => ?_
  dsimp only
  split
  · trivial
  · refine (Stays.tread (treads_expect rfl)).andThen hn h₁ (fun _ _ he => he) fun _ m₂ h₂ => ?_
    refine (Stays.tread treads_numberExpression).andThen hn h₂ (fun _ _ he => he)
      fun start m₃ h₃ => ?_
    refine (Stays.tread (treads_expect rfl)).andThen hn h₃ (fun _ _ he => he) fun _ m₄ h₄ => ?_
    refine (Stays.tread treads_numberExpression).andThen hn h₄ (fun _ _ he => he)
      fun limit m₅ h₅ => ?_
    have hstart : ∀ step m₆, n.past.Within m₆ →
        Concludes (fun _ m => n.Leaves m) (fun e _ => e.IsFault) ((do
          expectStatementEnd
          setVariable name (.num start)
          Program.startLoop name limit step : Exec Unit) m₆) := by
      intro step m₆ h₆
      refine (Stays.of_treads readRules_treads.expectStatementEnd).andThen hn h₆ (fun _ _ he => he)
        fun _ m₇ h₇ => ?_
      refine (stays_setVariable _ _).ofEval.andThen hn h₇ (fun _ _ he => he) fun _ m₈ h₈ => ?_
      refine concludes_flow (Program.concludes_startLoop name limit step m₈.program) ?_
      rintro _ q ⟨kept, hkept, rfl⟩
      refine ⟨h₈.kept rfl rfl rfl fun loc hloc => ?_, ?_, h₈.reply, h₈.branchInput⟩
      · rcases hloc with hcall | ⟨l, hl, rfl⟩
        · exact .inl (.inl hcall)
        · rcases List.mem_cons.mp hl with rfl | hl
          · exact .inr ⟨.inr hkeyword, h₈.line, h₈.forward, h₈.inside⟩
          · exact .inl (.inr ⟨l, hkept.subset hl, rfl⟩)
      · refine .onward h₈.line h₈.current ?_ ⟨Nat.le_of_succ_le h₈.forward, .inl ⟨?_, h₈.inside⟩⟩
        · rw [h₈.program]
          rfl
        · change n.program.peek? ≠ _
          rw [hkeyword]
          nofun
    refine (Stays.tread (treads_accept rfl)).andThen hn h₅ (fun _ _ he => he) fun found m₆ h₆ => ?_
    cases found with
    | true =>
      exact (Stays.tread treads_numberExpression).andThen hn h₆ (fun _ _ he => he)
        fun step m₇ h₇ => hstart step m₇ h₇
    | false => exact hstart 1 m₆ h₆

/-- A round of a loop ends in the middle of the `NEXT`, or back at the body of the loop. -/
theorem concludes_nextLoop (hn : n.past.Active o) (h : n.past.Within m) (name : Name) :
    Concludes
      (fun _ m' => n.past.Within m' ∨ n.Leaves m' ∧ m'.program.jumped = true)
      (fun e _ => e.IsFault) (nextLoop name m) := by
  rw [nextLoop, get_bind_apply]
  refine (Stays.tread (.ofExcept _)).andThen hn h (fun _ _ he => he) fun value m₁ h₁ => ?_
  refine Concludes.bind (Q := fun _ m' => n.past.Within m' ∨ n.Leaves m' ∧
    m'.program.jumped = true) ?_ ?_
  · refine concludes_flow (Program.concludes_endLoop name value m₁.program) ?_
    rintro x q ⟨l, outer, hloops, rfl | ⟨tokens, rfl⟩⟩
    · refine .inl (h₁.trans ?_)
      exact
        { Within.refl (h₁.active hn).program.index with
          program := rfl
          loops := (List.sublist_cons_self _ _).trans hloops }
    · refine .inr ⟨⟨h₁.kept rfl rfl rfl fun loc hloc => .inl ?_, ?_, h₁.reply, h₁.branchInput⟩, rfl⟩
      · exact hloc.mono (List.Subset.refl _) hloops.subset
      · exact .back l.resume rfl (h₁.resumes (.inr ⟨l, hloops.subset List.mem_cons_self, rfl⟩)) rfl
  · rintro x m₂ (h₂ | ⟨h₂, hjumped⟩)
    · exact .inl (h₂.congr rfl rfl rfl rfl rfl)
    · exact .inr ⟨⟨h₂.kept, h₂.goes, h₂.reply, h₂.branchInput⟩, hjumped⟩

theorem leaves_nextStatement (hn : n.past.Active o)
    (hkeyword : n.program.peek? = some (.keyword .NEXT)) :
    Concludes (fun _ m => n.Leaves m) (fun e _ => e.IsFault) (nextStatement n.past) := by
  have hif : n.program.peek? ≠ some (.keyword .IF) := by
    rw [hkeyword]
    nofun
  have hround : ∀ m name, n.past.Within m → Concludes
      (fun _ m' => n.Leaves m' ∧ (m'.program.jumped = false → n.past.Within m'))
      (fun e _ => e.IsFault) (nextLoop name m) := by
    intro m name h
    refine (concludes_nextLoop hn h name).mono ?_ fun _ _ he => he
    rintro _ m' (h' | ⟨h', hback⟩)
    · exact ⟨h'.leaves hif, fun _ => h'⟩
    · exact ⟨h', fun hstay => absurd (hback.symm.trans hstay) nofun⟩
  rw [nextStatement, get_bind_apply]
  split
  · cases n.past.program.loopName? with
    | some name =>
      exact (hround _ name (.refl hn.program.index)).mono (fun _ _ h => h.1) fun _ _ he => he
    | none => trivial
  · refine concludes_items (I := fun m => n.past.Within m) (fun m h => ?_) (fun m h => ?_)
      (.refl hn.program.index)
    · refine (Stays.tread treads_nextName).andThen hn h (fun _ _ he => he) fun name m₁ h₁ => ?_
      refine (hround m₁ name h₁).bind fun _ m₂ h₂ => ⟨h₂.1, fun hagain => h₂.2 ?_⟩
      simpa using hagain
    · refine (Stays.tread (treads_accept rfl) o m (h.active hn)).mono ?_ fun _ _ he => he
      exact fun _ m' h' => ⟨(h.trans h').leaves hif, h.trans h'⟩

/-! ### Definitions -/

theorem leaves_defStatement (hn : n.past.Active o)
    (hkeyword : n.program.peek? = some (.keyword .DEF)) :
    Concludes (fun _ m => n.Leaves m) (fun e _ => e.IsFault) (defStatement n.past) := by
  have hstart := Within.refl hn.program.index
  rw [defStatement, get_bind_apply]
  split
  · trivial
  · refine (Stays.tread treads_nextName).andThen hn hstart (fun _ _ he => he) fun name m₁ h₁ => ?_
    refine (Stays.tread (treads_expect rfl)).andThen hn h₁ (fun _ _ he => he) fun _ m₂ h₂ => ?_
    refine (Stays.tread treads_nextName).andThen hn h₂ (fun _ _ he => he) fun first m₃ h₃ => ?_
    rw [get_bind_apply]
    refine (Stays.of_treads (readRules_treads.moreNames _)).andThen hn h₃ (fun _ _ he => he)
      fun others m₄ h₄ => ?_
    refine (Stays.tread (treads_expect rfl)).andThen hn h₄ (fun _ _ he => he) fun _ m₅ h₅ => ?_
    refine (Stays.tread (treads_expect rfl)).andThen hn h₅ (fun _ _ he => he) fun _ m₆ h₆ => ?_
    rw [get_bind_apply]
    dsimp only
    split
    · trivial
    · refine ⟨h₆.kept rfl rfl rfl fun _ hloc => .inl hloc, ?_, h₆.reply, h₆.branchInput⟩
      have hforward : n.program.location.index ≤
          (m₆.program.skipStatement).location.index :=
        Nat.le_trans (Nat.le_of_succ_le h₆.forward) (Nat.le_add_right _ _)
      refine .onward h₆.line h₆.current ?_ ⟨hforward, .inr ⟨hkeyword, fun i t ha hb hi => ?_⟩⟩
      · change m₆.program.jumped = n.program.jumped
        rw [h₆.program]
        rfl
      · by_cases hbody : i < m₆.program.location.index
        · exact Token.endsStatement_of_isInner (h₆.inside i t ha hbody hi)
        · rw [← show m₆.program.current = n.program.current from h₆.current] at hi
          simpa using of_mem_takeWhile (Nat.le_of_not_lt hbody) hb hi

end LineBasic.Machine
