import LineBasic.Proofs.Machine.Leave

/-!
# How a statement ends

An `IF` comes down to a statement further right on its line: the statement of the branch that it
chooses, which may be an `IF` again. Whatever is done is done by that statement; afterwards the rest
of the line is dropped, unless control went elsewhere. An `INPUT` without a reply goes back to its
own keyword, which is the nearest one to its left, since nothing that it has passed is an `INPUT`.

No statement is executed with a reply at hand except the `INPUT` that it is for, so for all other
statements there is none.

## Main definitions

* `StartsBranch` — the places directly behind a `THEN` or an `ELSE`
* `Machine.LeadsTo` — the statement that a statement comes down to
* `Machine.Suspended` — a machine that waits at an `INPUT`
* `Machine.question` — what an `INPUT` evaluates before it looks at its reply
* `Machine.Answered` — what an `INPUT` does with a reply that it accepts
* `Machine.Outcome` — how a statement may end without a reply

## Main results

* `Machine.LeadsTo.startsBranch` — a statement that is executed for an `IF` starts a branch
* `Machine.suspend_eq` — an `INPUT` goes back to its own keyword
* `Machine.outcome_statement` — every statement ends in one of these ways
* `Machine.concludes_statement_reply` — and so does an `INPUT` with a reply
-/

namespace LineBasic

/-- A place of a line is directly behind a `THEN` or an `ELSE`. -/
def StartsBranch (tokens : List Token) : (i : Nat) → Prop
  | 0 => False
  | i + 1 => tokens[i]? = some (.keyword .THEN) ∨ tokens[i]? = some (.keyword .ELSE)

namespace Machine

variable {o : Options} {n n' m s : Machine}

/-! ### The branches of an `IF` -/

/-- A branch that is dropped is followed by the branch behind its `ELSE`, or by nothing. -/
theorem concludes_skipBranch (hm : m.program.location.index ≤ m.program.current.length) :
    Concludes
      (fun found m' => m.Walked m' ∧
        (found = true → StartsBranch m'.program.current m'.program.location.index) ∧
        (found = false → m'.program.location.index = m'.program.current.length))
      (fun e _ => e.IsFault) (skipBranch m) := by
  have hskipped := length_takeWhile_rest_le hm (!endsBranch ·)
  rw [skipBranch, get_bind_apply]
  generalize hpeek : (m.program.skip
    (m.program.rest.takeWhile (!endsBranch ·)).length).peek? = peeked
  split
  · obtain ⟨hindex, -⟩ := List.getElem?_eq_some_iff.mp hpeek
    refine ⟨⟨rfl, ?_, hindex, rfl, fun _ _ h => h⟩, fun _ => .inr hpeek, by simp⟩
    exact Nat.le_add_right_of_le (Nat.le_add_right _ _)
  · exact ⟨⟨rfl, hm, Nat.le_refl _, rfl, fun _ _ h => h⟩, by simp, fun _ => rfl⟩

/-- A branch that is chosen is behind a `THEN` or an `ELSE`, or it is a `GOTO` in the place of the
`THEN`. -/
theorem concludes_chooseBranch (hm : m.Active o) :
    Concludes
      (fun found m' => m.Walked m' ∧
        (found = true → StartsBranch m'.program.current m'.program.location.index ∨
          m'.program.peek? = some (.keyword .GOTO)) ∧
        (found = false → m'.program.location.index = m'.program.current.length))
      (fun e _ => e.IsFault) (chooseBranch m) := by
  rw [chooseBranch]
  refine treads_expression.ofEval.andThen hm (.refl hm.program.index) (fun _ _ he => he)
    fun condition m₁ h₁ => ?_
  have hchoice : ∀ m₂, m.Walked m₂ → (StartsBranch m₂.program.current m₂.program.location.index ∨
      m₂.program.peek? = some (.keyword .GOTO)) → Concludes
        (fun found m' => m.Walked m' ∧
          (found = true → StartsBranch m'.program.current m'.program.location.index ∨
            m'.program.peek? = some (.keyword .GOTO)) ∧
          (found = false → m'.program.location.index = m'.program.current.length))
        (fun e _ => e.IsFault)
        ((if condition.truth then pure true else skipBranch : Exec Bool) m₂) := by
    intro m₂ h₂ hbranch
    split
    · exact ⟨h₂, fun _ => hbranch, fun hfound => absurd hfound.symm Bool.false_ne_true⟩
    · refine (concludes_skipBranch (hm.walked h₂).program.index).mono ?_ fun _ _ he => he
      exact fun found m₃ h₃ => ⟨h₂.trans h₃.1, fun hfound => .inl (h₃.2.1 hfound), h₃.2.2⟩
  rw [bind_apply, accept_apply]
  by_cases hthen : m₁.program.peekKind? = some (.keyword .THEN)
  · rw [if_pos hthen]
    exact hchoice m₁.past (h₁.toWalked.trans (.skip (Program.peek?_of_peekKind? hthen)))
      (.inl (.inl (Program.peek?_of_peekKind? hthen)))
  · rw [if_neg hthen]
    simp only [Bool.not_false, if_true, get_bind_apply]
    by_cases hgoto : m₁.program.peekKind? ≠ some (.keyword .GOTO)
    · by_cases hend : m₁.program.atEnd = true
      · simp only [if_pos hgoto, if_pos hend]
        trivial
      · simp only [if_pos hgoto, if_neg hend]
        trivial
    · simp only [if_neg hgoto]
      exact hchoice m₁ h₁.toWalked (.inr (Program.peek?_of_peekKind? (not_not.mp hgoto)))

/-- Executing the statement at the location of `n` comes down to executing the one at the location
of `s`: an `IF` executes the statement of the branch that it chooses. -/
inductive LeadsTo : Machine → Machine → Prop where
  | here (n : Machine) : LeadsTo n n
  | branch {n n' s : Machine} (keyword : n.program.peek? = some (.keyword .IF))
      (choice : chooseBranch n.past = .ok true n') (rest : LeadsTo n' s) : LeadsTo n s

namespace LeadsTo

/-- The choice of a branch moves along the line and ends at a branch. -/
theorem choice_spec (hn : n.Active o) (hkeyword : n.program.peek? = some (.keyword .IF))
    (hchoice : chooseBranch n.past = .ok true n') :
    n.Walked n' ∧ (StartsBranch n'.program.current n'.program.location.index ∨
      n'.program.peek? = some (.keyword .GOTO)) := by
  have hpast : n.Walked n.past := .skip hkeyword
  have hspec := concludes_chooseBranch (hn.walked hpast)
  rw [hchoice] at hspec
  exact ⟨hpast.trans hspec.1, hspec.2.1 rfl⟩

/-- An `IF` only looks for its branch. -/
theorem walked (h : n.LeadsTo s) (hn : n.Active o) : n.Walked s := by
  induction h with
  | here n => exact .refl hn.program.index
  | branch keyword choice rest ih =>
    have hchosen := (choice_spec hn keyword choice).1
    exact hchosen.trans (ih (hn.walked hchosen))

/-- A statement that is executed for an `IF` starts a branch. -/
theorem startsBranch (h : n.LeadsTo s) (hn : n.Active o) :
    s = n ∨ StartsBranch s.program.current s.program.location.index ∨
      s.program.peek? = some (.keyword .GOTO) := by
  induction h with
  | here n => exact .inl rfl
  | branch keyword choice rest ih =>
    obtain ⟨hchosen, hbranch⟩ := choice_spec hn keyword choice
    rcases ih (hn.walked hchosen) with rfl | hbranch'
    · exact .inr hbranch
    · exact .inr hbranch'

end LeadsTo

/-! ### `INPUT` -/

/-- The search for a keyword goes back to the nearest one. -/
theorem lastBefore?_eq {tokens : List Token} {k : Token.Kind} {a b : Nat} (hab : a < b)
    (ha : tokens[a]?.map Token.kind = some k)
    (hbetween : ∀ i, a < i → i < b → tokens[i]?.map Token.kind ≠ some k) :
    Program.lastBefore? tokens k b = some a := by
  induction b with
  | zero => omega
  | succ b ih =>
    rw [Program.lastBefore?]
    by_cases hb : a = b
    · rw [← hb, if_pos ha]
    · rw [if_neg (hbetween b (by omega) (Nat.lt_succ_self b))]
      exact ih (by omega) fun i hi hib => hbetween i hi (by omega)

/-- The text that an `INPUT` asks with, by the token after its keyword. -/
def askedWith : Option Token → Bytes
  | some (.string s) => s
  | _ => usualPrompt

/-- `m` waits at the `INPUT` that `s` was about to execute. -/
structure Suspended (s m : Machine) : Prop where
  keyword : s.program.peek? = some (.keyword .INPUT)
  program : m.program = s.program
  reply : m.reply = none
  prompt : m.prompt = askedWith s.past.program.peek?

/-- An `INPUT` that has moved along its line goes back to its keyword. -/
theorem suspend_eq (hkeyword : s.program.peek? = some (.keyword .INPUT)) {i : Nat}
    (hprogram : m.program = s.program.atIndex i) (hbehind : s.program.location.index < i)
    (hwithin : i ≤ s.program.current.length)
    (hinside : Inside s.program.current (s.program.location.index + 1) i) (prompt : Bytes) :
    suspend prompt m = .error (.signal .awaitInput) { m with program := s.program, prompt } := by
  have hlast : Program.lastBefore? s.program.current (.keyword .INPUT) i =
      some s.program.location.index := by
    refine lastBefore?_eq hbehind (congrArg (Option.map Token.kind) hkeyword) ?_
    intro j hj hji heq
    obtain ⟨t, ht, hkind⟩ := Option.map_eq_some_iff.mp heq
    have hinner := hinside j t hj hji ht
    rw [Token.eq_keyword_of_kind hkind] at hinner
    cases hinner
  have hrewind : Program.rewindBefore (.keyword .INPUT) m.program = .ok true s.program := by
    rw [hprogram, Program.rewindBefore, if_neg (by exact Nat.not_lt.mpr hwithin)]
    simp only [Program.rewindBefore?, Program.atIndex, hlast, Option.map_some]
  change (ofEval (onProgram (Program.rewindBefore (.keyword .INPUT))) >>= _) m = _
  rw [bind_apply, ofEval, onProgram, hrewind]
  rfl

/-- What an `INPUT` asks is what its text says, and the text moves along the line. -/
theorem concludes_promptText (hm : m.Active o) :
    Concludes (fun prompt m' => m.Trod m' ∧ prompt = askedWith m.program.peek?)
      (fun e _ => e.IsFault) (promptText m) := by
  have htrod := readRules_treads.promptText o m hm
  cases hend : promptText m with
  | error e m' =>
    rw [hend] at htrod
    exact htrod
  | ok prompt m' =>
    rw [hend] at htrod
    refine ⟨htrod, ?_⟩
    rw [promptText, get_bind_apply] at hend
    generalize hpeek : m.program.peek? = peeked at hend ⊢
    split at hend
    · next text =>
      obtain ⟨_, m₁, -, hend⟩ := bind_eq_ok hend
      obtain ⟨found, m₂, -, hend⟩ := bind_eq_ok hend
      cases found with
      | true =>
        cases hend
        rfl
      | false =>
        obtain ⟨found, m₃, -, hend⟩ := bind_eq_ok hend
        cases found with
        | true =>
          cases hend
          rfl
        | false => cases hend
    · next hother =>
      cases hend
      rw [askedWith]
      exact hother

/-- What an `INPUT` evaluates before it looks at its reply: what it asks, and its target. -/
def question : Exec (Bytes × Target) := do
  let prompt ← promptText
  let t ← target
  expectStatementEnd
  return (prompt, t)

theorem inputStatement_eq (m : Machine) :
    inputStatement m = (question >>= fun (prompt, t) => do
      match (← get).reply with
      | none => suspend prompt
      | some reply =>
        modify fun m => { m with reply := none }
        takeReply t reply prompt ⟨m.program.location.line, m.program.location.index - 1⟩) m := by
  have hassoc : ∀ k : Bytes × Target → Exec Unit, question >>= k = (do
      let prompt ← promptText
      let t ← target
      expectStatementEnd
      k (prompt, t)) := fun k => by
    simp only [question, bind_assoc, pure_bind]
  rw [inputStatement, get_bind_apply]
  refine .trans ?_ (congrFun (hassoc _) m).symm
  rfl

/-- The question of an `INPUT` moves along the line. -/
theorem concludes_question (hm : m.Active o) :
    Concludes (fun asked m' => m.Trod m' ∧ asked.1 = askedWith m.program.peek?)
      (fun e _ => e.IsFault) (question m) := by
  refine (concludes_promptText hm).bind ?_
  rintro prompt m₁ ⟨h₁, rfl⟩
  refine treads_target.ofEval.andThen hm h₁ (fun _ _ he => he) fun t m₂ h₂ => ?_
  refine readRules_treads.expectStatementEnd.andThen hm h₂ (fun _ _ he => he) fun _ m₃ h₃ => ?_
  exact ⟨h₃, rfl⟩

/-- Without a reply, an `INPUT` waits. -/
theorem concludes_inputStatement (hn : n.past.Active o)
    (hkeyword : n.program.peek? = some (.keyword .INPUT)) (hreply : n.reply = none) :
    Concludes (fun _ _ => False)
      (fun e m => e.IsFault ∨
        e = .signal .awaitInput ∧ n.Suspended m ∧ m.branchInput = n.branchInput)
      (inputStatement n.past) := by
  rw [inputStatement_eq]
  refine Concludes.bind ((concludes_question hn).mono (fun _ _ h => h) fun _ _ he => .inl he) ?_
  rintro ⟨prompt, t⟩ m₁ ⟨h₁, rfl⟩
  have hreply₁ : m₁.reply = none := by
    rw [h₁.same]
    exact hreply
  dsimp only
  rw [get_bind_apply, hreply₁]
  dsimp only
  rw [suspend_eq hkeyword h₁.program h₁.forward h₁.within h₁.inside]
  refine .inr ⟨rfl, ⟨hkeyword, rfl, hreply₁, rfl⟩, ?_⟩
  rw [h₁.same]
  rfl

/-- What an `INPUT` at the location of `n` does with a reply that it accepts. If it was suspended in
the branch of an `IF`, it drops the rest of the line and forgets the branch. -/
structure Answered (n m : Machine) : Prop where
  kept : n.program.Kept m.program
  line : m.program.location.line = n.program.location.line
  current : m.program.current = n.program.current
  jumped : m.program.jumped = n.program.jumped
  reply : m.reply = none
  rest :
    (n.branchInput = some n.program.location ∧ m.branchInput = none ∧
        m.program.location.index = n.program.current.length) ∨
      (n.branchInput ≠ some n.program.location ∧ m.branchInput = n.branchInput ∧
        n.program.location.index < m.program.location.index ∧
        Inside n.program.current (n.program.location.index + 1) m.program.location.index)

theorem answered_storeReply (hn : n.past.Active o) (h : n.past.Within m) (hreply : n.reply = none)
    (t : Target) (v : Value) (extra : Bool) :
    Concludes (fun _ m' => n.Answered m') (fun e _ => e.IsFault)
      (storeReply t v extra n.program.location m) := by
  rw [storeReply]
  refine (stays_assign t v).ofEval.andThen hn h (fun _ _ he => he) fun _ m₁ h₁ => ?_
  have hrest : ∀ m₂, n.past.Within m₂ →
      Concludes (fun _ m' => n.Answered m') (fun e _ => e.IsFault) ((do
        modify fun m => { m with prompt := [] }
        if (← get).branchInput = some n.program.location then
          modify fun m => { m with branchInput := none, program := m.program.discardRest } :
          Exec Unit) m₂) := by
    intro m₂ h₂
    have hjumped : m₂.program.jumped = n.program.jumped := by
      rw [h₂.program]
      rfl
    rw [bind_apply, modify_apply]
    dsimp only
    rw [get_bind_apply]
    by_cases hmarked : m₂.branchInput = some n.program.location
    · rw [if_pos (by exact hmarked)]
      exact ⟨h₂.kept rfl rfl rfl fun _ hloc => .inl hloc, h₂.line, h₂.current, hjumped,
        h₂.reply.trans hreply, .inl ⟨h₂.branchInput.symm.trans hmarked, rfl,
          congrArg List.length h₂.current⟩⟩
    · rw [if_neg (by exact hmarked)]
      exact ⟨h₂.kept rfl rfl rfl fun _ hloc => .inl hloc, h₂.line, h₂.current, hjumped,
        h₂.reply.trans hreply, .inr ⟨fun heq => hmarked (h₂.branchInput.trans heq), h₂.branchInput,
          h₂.forward, h₂.inside⟩⟩
  cases extra with
  | false => exact hrest m₁ h₁
  | true => exact hrest _ (h₁.congr rfl rfl rfl rfl rfl)

/-- With a reply, an `INPUT` stores a value or asks again. -/
theorem concludes_inputStatement_reply (hn : n.past.Active o)
    (hkeyword : n.program.peek? = some (.keyword .INPUT)) {reply : Bytes}
    (hreply : n.reply = some reply) :
    Concludes (fun _ m => n.Answered m)
      (fun e m => e.IsFault ∨
        e = .signal .awaitInput ∧ n.Suspended m ∧ m.branchInput = n.branchInput)
      (inputStatement n.past) := by
  rw [inputStatement_eq]
  refine Concludes.bind ((concludes_question hn).mono (fun _ _ h => h) fun _ _ he => .inl he) ?_
  rintro ⟨prompt, t⟩ m₁ ⟨h₁, rfl⟩
  have hreply₁ : m₁.reply = some reply := by
    rw [h₁.same]
    exact hreply
  dsimp only
  rw [get_bind_apply, hreply₁]
  dsimp only
  rw [bind_apply, modify_apply, takeReply]
  obtain ⟨vs, hvalues⟩ := Field.readAll_eq_cons reply
  dsimp only
  rw [hvalues, firstValue, pure_bind]
  have hwithin : ({ n with reply := none } : Machine).past.Within { m₁ with reply := none } :=
    { Within.of_trod h₁ with reply := rfl }
  have hstore : ∀ v extra, Concludes (fun _ m => n.Answered m)
      (fun e m => e.IsFault ∨
        e = .signal .awaitInput ∧ n.Suspended m ∧ m.branchInput = n.branchInput)
      (storeReply t v extra n.program.location { m₁ with reply := none }) := by
    intro v extra
    refine (answered_storeReply (n := { n with reply := none }) (hn.congr rfl rfl rfl) hwithin rfl
      t v extra).mono ?_ fun _ _ he => .inl he
    exact fun _ m h => ⟨h.kept, h.line, h.current, h.jumped, h.reply, h.rest⟩
  generalize t.name.isString = string, (Field.read reply).1 = first
  cases string with
  | true => exact hstore _ _
  | false =>
    cases first with
    | num x => exact hstore _ _
    | str text =>
      refine Concludes.bind (Q := fun _ m => m = Machine.emit { m₁ with reply := none }
        (.reenter n.program.location.line)) rfl fun _ m₂ hm₂ => ?_
      have hprogram : m₂.program = n.program.atIndex m₁.program.location.index := by
        rw [hm₂]
        exact h₁.program
      rw [suspend_eq hkeyword hprogram h₁.forward h₁.within h₁.inside, hm₂]
      exact .inr ⟨rfl, ⟨hkeyword, rfl, rfl, rfl⟩, hwithin.branchInput⟩

/-! ### Every statement -/

/-- What the statement at the location of `n` does when it ends normally; it is no `INPUT` then. It
goes as if it were one statement; what it leaves alone is what the statement at `s` leaves alone,
which it comes down to. -/
structure Done (n m : Machine) : Prop where
  keyword : n.program.peek? ≠ some (.keyword .INPUT)
  kept : ∃ s, n.LeadsTo s ∧ s.program.Kept m.program
  goes : n.program.Goes m.program
  reply : m.reply = none
  branchInput : m.branchInput = n.branchInput

/-- How the statement at the location of `n` leaves the run. Whether it breaks the run or waits, it
is the statement at `s` that does so. -/
def Halts (n : Machine) : Stop → Machine → Prop
  | .fault _, _ => True
  | .signal .finish, m =>
    ∃ s, n.LeadsTo s ∧ m.program = s.program.skip 1 ∧ m.reply = none ∧
      m.branchInput = n.branchInput
  | .signal .stop, m =>
    ∃ s, n.LeadsTo s ∧ s.program.peek? = some (.keyword .STOP) ∧ m.program = s.program.skip 1 ∧
      m.reply = none ∧ m.branchInput = n.branchInput
  | .signal .awaitInput, m =>
    ∃ s, n.LeadsTo s ∧ s.Suspended m ∧
      (s = n ∧ m.branchInput = n.branchInput ∨
        StartsBranch s.program.current s.program.location.index ∧
          m.branchInput = some s.program.location)

/-- How the statement at the location of `n` may end when there is no reply. -/
def Outcome (n : Machine) : EStateM.Result Stop Machine Unit → Prop :=
  Concludes (fun _ m => n.Done m) n.Halts

theorem Halts.of_isFault {e : Stop} (he : e.IsFault) (m : Machine) : n.Halts e m := by
  cases e with
  | fault cause => trivial
  | signal s => cases he

namespace Outcome

/-- A statement that is no `IF` comes down to itself. -/
theorem of_leaves {r : EStateM.Result Stop Machine Unit} (hreply : n.reply = none)
    (hkeyword : n.program.peek? ≠ some (.keyword .INPUT))
    (h : Concludes (fun _ m => n.Leaves m) (fun e _ => e.IsFault) r) : n.Outcome r := by
  refine h.mono (fun _ m hm => ?_) fun _ m he => .of_isFault he m
  exact ⟨hkeyword, ⟨n, .here n, hm.kept⟩, hm.goes, hm.reply.trans hreply, hm.branchInput⟩

/-- An `INPUT` waits in its own place. -/
theorem of_suspended {r : EStateM.Result Stop Machine Unit}
    (h : Concludes (fun _ _ => False)
      (fun e m => e.IsFault ∨
        e = .signal .awaitInput ∧ n.Suspended m ∧ m.branchInput = n.branchInput) r) :
    n.Outcome r := by
  refine h.mono (fun _ _ hm => hm.elim) ?_
  rintro e m (he | ⟨rfl, hsuspended, hmarked⟩)
  · exact .of_isFault he m
  · exact ⟨n, .here n, hsuspended, .inl ⟨rfl, hmarked⟩⟩

end Outcome

/-- Moving along the line changes no place that is remembered. -/
theorem Walked.resumes_iff (h : n.Walked n') (loc : Location) :
    n'.program.Resumes loc ↔ n.program.Resumes loc := by
  rw [h.program]
  rfl

/-- An `IF` goes where the statement of its branch goes, once the rest of the line is dropped. -/
theorem Walked.goes (hwalked : n.Walked n') (hjumped : n.program.jumped = false)
    (hgoes : n'.program.Goes m.program) :
    n.program.Goes (if m.program.jumped = true then m.program else m.program.discardRest) := by
  have hline : n'.program.location.line = n.program.location.line := by
    rw [hwalked.program]
    rfl
  have hdropped : m.program.location.line = n'.program.location.line →
      m.program.current = n'.program.current → n.program.Goes m.program.discardRest :=
    fun h h' => .dropped (h.trans hline) (h'.trans hwalked.current)
      (congrArg List.length (h'.trans hwalked.current))
  -- a branch that stays on the line drops the rest of it, and one that jumps does not
  cases hgoes with
  | onward line current jumped belongs =>
    have hstay : m.program.jumped = false := by
      rw [jumped, hwalked.program]
      exact hjumped
    rw [if_neg (by rw [hstay]; nofun)]
    exact hdropped line current
  | dropped line current index =>
    split
    · exact .dropped (line.trans hline) (current.trans hwalked.current)
        (index.trans (congrArg List.length hwalked.current))
    · exact hdropped line current
  | start jumped index =>
    rw [if_pos jumped]
    exact .start jumped index
  | back loc jumped resumes location =>
    rw [if_pos jumped]
    exact .back loc jumped ((hwalked.resumes_iff loc).mp resumes) location

/-- What an `IF` does is what the statement of its branch does; afterwards the rest of the line is
dropped, unless control went elsewhere. -/
theorem outcome_aloneOnLine {x : Exec Unit} (hn : n.Active o) (hjumped : n.program.jumped = false)
    (hkeyword : n.program.peek? = some (.keyword .IF))
    (hchoice : chooseBranch n.past = .ok true n') (hx : n'.Outcome (x n')) :
    n.Outcome (aloneOnLine x n') := by
  obtain ⟨hwalked, hbranch⟩ := LeadsTo.choice_spec hn hkeyword hchoice
  have hinput : n.program.peek? ≠ some (.keyword .INPUT) := by
    simp [hkeyword]
  have hleads : ∀ {s}, n'.LeadsTo s → n.LeadsTo s := fun h => .branch hkeyword hchoice h
  have hmarked : n'.branchInput = n.branchInput := by rw [hwalked.same]
  rw [aloneOnLine]
  cases hend : x n' with
  | ok _ m =>
    rw [hend] at hx
    obtain ⟨-, ⟨s, hs, hkept⟩, hgoes, hreply, hbranchInput⟩ := hx
    have hgoes' := hwalked.goes hjumped hgoes
    have hmarked' := hbranchInput.trans hmarked
    dsimp only
    split at hgoes'
    · next hm =>
      rw [if_pos hm]
      exact ⟨hinput, ⟨s, hleads hs, hkept⟩, hgoes', hreply, hmarked'⟩
    · next hm =>
      rw [if_neg hm]
      exact ⟨hinput, ⟨s, hleads hs, hkept.atIndex _⟩, hgoes', hreply, hmarked'⟩
  | error e m =>
    rw [hend] at hx
    cases e with
    | fault c => trivial
    | signal signal =>
      cases signal with
      | finish =>
        obtain ⟨s, hs, hprogram, hreply, hbranchInput⟩ := hx
        exact ⟨s, hleads hs, hprogram, hreply, hbranchInput.trans hmarked⟩
      | stop =>
        obtain ⟨s, hs, hstop, hprogram, hreply, hbranchInput⟩ := hx
        exact ⟨s, hleads hs, hstop, hprogram, hreply, hbranchInput.trans hmarked⟩
      | awaitInput =>
        obtain ⟨s, hs, hsuspended, hplace⟩ := hx
        refine ⟨s, hleads hs, ⟨hsuspended.keyword, hsuspended.program, hsuspended.reply,
          hsuspended.prompt⟩, .inr ⟨?_, congrArg (some ·.location) hsuspended.program⟩⟩
        rcases (hleads hs).startsBranch hn with rfl | hstarts | hgoto
        · cases hsuspended.keyword.symm.trans hkeyword
        · exact hstarts
        · cases hsuspended.keyword.symm.trans hgoto

/-- An `IF` ends as the statement of its branch does, given that that one ends in one of the ways of
a statement. -/
theorem outcome_ifStatement {x : Exec Unit} (hn : n.Active o) (hjumped : n.program.jumped = false)
    (hreply : n.reply = none) (hkeyword : n.program.peek? = some (.keyword .IF))
    (hx : ∀ n', n.Walked n' → n'.Outcome (x n')) : n.Outcome (ifStatement x n.past) := by
  have hpast : n.Walked n.past := .skip hkeyword
  have hspec := concludes_chooseBranch (hn.walked hpast)
  have hinput : n.program.peek? ≠ some (.keyword .INPUT) := by
    rw [hkeyword]
    nofun
  rw [ifStatement_eq, bind_apply]
  cases hchoice : chooseBranch n.past with
  | error e m =>
    rw [hchoice] at hspec
    exact .of_isFault hspec m
  | ok found n' =>
    rw [hchoice] at hspec
    obtain ⟨hwalked, htrue, hfalse⟩ := hspec
    have hn' := hpast.trans hwalked
    have hreply' : n'.reply = none := by
      rw [hn'.same]
      exact hreply
    have hmarked : n'.branchInput = n.branchInput := by rw [hn'.same]
    cases found with
    | false =>
      have hend : n'.program.location.index = n.program.current.length :=
        (hfalse rfl).trans (congrArg List.length hn'.current)
      refine ⟨hinput, ⟨n, .here n, ?_⟩, ?_, hreply', hmarked⟩
      · rw [hn'.program]
        exact (Program.Kept.refl _).atIndex _
      · refine .dropped ?_ hn'.current hend
        rw [hn'.program]
        rfl
    | true =>
      change n.Outcome (branch x n')
      rw [branch, get_bind_apply]
      generalize hpeek : n'.program.peek? = peeked
      split
      · next target =>
        have hpast' : n'.past.Active o := (hn.walked hn').walked (.skip hpeek)
        refine (leaves_goToNumber hpast' (.refl hpast'.program.index) target).mono ?_
          fun _ m he => .of_isFault he m
        rintro _ m ⟨hleaves, hjump, hindex⟩
        exact ⟨hinput, ⟨n', .branch hkeyword hchoice (.here n'), hleaves.kept⟩, .start hjump hindex,
          hleaves.reply.trans hreply', hleaves.branchInput.trans hmarked⟩
      · exact outcome_aloneOnLine hn hjumped hkeyword hchoice (hx n' hn')

/-- What comes behind a keyword. -/
theorem skip_bind_apply {α : Type} (f : Unit → Exec α) (m : Machine) :
    (modifyProgram (·.skip 1) >>= f) m = f () m.past := rfl

/-- Every statement ends in one of the ways of a statement, by induction on the tokens left. -/
theorem outcome_statement (tokens : Nat) (hn : n.Active o) (hjumped : n.program.jumped = false)
    (hreply : n.reply = none) : n.Outcome (statement tokens n) := by
  induction tokens generalizing n with
  | zero => trivial
  | succ tokens ih =>
    rw [statement, get_bind_apply]
    generalize hpeek : n.program.peek? = peeked
    split
    · trivial
    · exact .of_leaves hreply (by simp [hpeek]) (leaves_assignment hn hpeek)
    · next t _ =>
      have hpast : n.past.Active o := hn.walked (.skip hpeek)
      have hne : ∀ {k k' : Token}, n.program.peek? = some k → k ≠ k' →
          n.program.peek? ≠ some k' := by
        intro k k' hk hne heq
        exact hne (Option.some.inj (hk.symm.trans heq))
      have hleave : ∀ {x : Exec Unit} {k : Token}, n.program.peek? = some k → k ≠ .keyword .IF →
          k ≠ .keyword .INPUT → Stays Stop.IsFault x → n.Outcome (x n.past) :=
        fun hk hif hinput hx => .of_leaves hreply (hne hk hinput) (hx.leaves hpast (hne hk hif))
      rw [skip_bind_apply]
      split
      · exact hleave hpeek (by simp) (by simp) (.pure ())
      · exact hleave hpeek (by simp) (by simp) (.pure ())
      · exact hleave hpeek (by simp) (by simp) (.pure ())
      · exact .of_leaves hreply (hne hpeek (by simp)) (leaves_discardRest hpast)
      · exact hleave hpeek (by simp) (by simp) execRules_stays.letStatement
      · exact hleave hpeek (by simp) (by simp) (execRules_stays.dimStatement stays_dimItem)
      · exact hleave hpeek (by simp) (by simp) stays_printStatement
      · exact hleave hpeek (by simp) (by simp) stays_printStatement
      · exact .of_suspended (concludes_inputStatement hpast hpeek hreply)
      · refine outcome_ifStatement hn hjumped hreply hpeek fun n' hn' => ih (hn.walked hn') ?_ ?_
        · rw [hn'.program]
          exact hjumped
        · rw [hn'.same]
          exact hreply
      · exact .of_leaves hreply (hne hpeek (by simp)) (leaves_gotoStatement hpast)
      · exact .of_leaves hreply (hne hpeek (by simp)) (leaves_gosubStatement hpast hpeek)
      · exact .of_leaves hreply (hne hpeek (by simp)) (leaves_returnFromGosub hpast)
      · exact ⟨n, .here n, rfl, hreply, rfl⟩
      · exact ⟨n, .here n, hpeek, rfl, hreply, rfl⟩
      · exact .of_leaves hreply (hne hpeek (by simp)) (leaves_forStatement hpast hpeek)
      · exact .of_leaves hreply (hne hpeek (by simp)) (leaves_nextStatement hpast hpeek)
      · exact hleave hpeek (by simp) (by simp) stays_restore
      · exact .of_leaves hreply (hne hpeek (by simp)) (leaves_defStatement hpast hpeek)
      · exact hleave hpeek (by simp) (by simp) (execRules_stays.items stays_readItem)
      · trivial

/-- With a reply, the statement that is executed is the `INPUT` that it is for. -/
theorem concludes_statement_reply (tokens : Nat) (hn : n.Active o)
    (hkeyword : n.program.peek? = some (.keyword .INPUT)) {reply : Bytes}
    (hreply : n.reply = some reply) :
    Concludes (fun _ m => n.Answered m)
      (fun e m => e.IsFault ∨
        e = .signal .awaitInput ∧ n.Suspended m ∧ m.branchInput = n.branchInput)
      (statement tokens n) := by
  cases tokens with
  | zero => exact .inl trivial
  | succ tokens =>
    rw [statement, get_bind_apply, hkeyword]
    exact concludes_inputStatement_reply (hn.walked (.skip hkeyword)) hkeyword hreply

end Machine

end LineBasic
