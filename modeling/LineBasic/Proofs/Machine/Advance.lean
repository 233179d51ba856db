import LineBasic.Proofs.Machine.Branch
import LineBasic.Proofs.Machine.Reachable

/-!
# What a step does

A step executes the statement at the location, behind the colons in front of it, and takes the colon
after it. It ends in one of seven ways, which are read off here once. Where the location is
afterwards follows from how the statement has ended: behind a colon after the statement, at the end
of the line, at the start of a line, or back at a place that a pending call or loop remembered.

## Main definitions

* `Machine.atStatement`, `Machine.upcoming?` — a machine about to execute a statement
* `Program.Lands` — where the location is after a statement and its colon
* `Machine.Stepped` — the ways in which a step ends

## Main results

* `Machine.concludes_execute` — what is executed, without a reply
* `Machine.concludes_execute_reply` — what is executed with a reply
* `Machine.stepped` — a step ends in one of these ways
-/

namespace LineBasic

/-- Where the location is after the statement at the location of `p` and the colon behind it. -/
inductive Program.Lands (p q : Program) : Prop where
  /-- Behind the colon. -/
  | behind (b : Nat) (line : q.location.line = p.location.line) (current : q.current = p.current)
      (belongs : Belongs p.current p.location.index b)
      (colon : p.current[b]? = some (.mark .colon)) (index : q.location.index = b + 1)
  /-- At the end of the line. -/
  | ended (line : q.location.line = p.location.line) (current : q.current = p.current)
      (index : q.location.index = p.current.length)
  /-- At the start of a line. -/
  | start (index : q.location.index = 0)
  /-- At the place of a pending call or loop, or at the end of its line. -/
  | back (loc : Location) (resumes : p.Resumes loc)
      (location : q.location = ⟨loc.line, min loc.index q.current.length⟩)

namespace Machine

variable {o : Options} {m m' n : Machine}

/-! ### One statement and its colon -/

/-- The machine at the statement that is executed next: behind the colons in front of it, and with
no transfer of control to report. -/
def atStatement (m : Machine) : Machine :=
  { m with
    program :=
      (m.program.skip (m.program.rest.takeWhile (· == .mark .colon)).length).clearJumped }

/-- A statement is executed unless only colons are left. -/
theorem execute_apply (m : Machine) :
    execute m =
      if m.atStatement.program.atEnd = true then
        .ok () { m with
          program := m.program.skip (m.program.rest.takeWhile (· == .mark .colon)).length }
      else
        (statement m.atStatement.program.rest.length >>= fun _ => endStatement) m.atStatement := by
  change (if m.atStatement.program.atEnd = true then pure ()
    else modifyProgram Program.clearJumped >>= _ : Exec Unit) _ = _
  split
  · rfl
  · rfl

theorem active_atStatement (hm : m.Active o) : m.atStatement.Active o :=
  hm.withProgram
    ((hm.program.atIndex (length_takeWhile_rest_le hm.program.index _)).withJumped false)

/-- After a statement that stays on its line, the line ends or a colon or an `ELSE` follows. -/
theorem concludes_endStatement (m : Machine) :
    Concludes
      (fun _ m' => m.program.jumped = true ∧ m' = m ∨
        m.program.jumped = false ∧ ∃ i, m' = { m with program := m.program.atIndex i } ∧
          (m.program.current.length ≤ m.program.location.index ∧ i = m.program.location.index ∨
            m.program.peek? = some (.mark .colon) ∧ i = m.program.location.index + 1 ∨
            m.program.peek? = some (.keyword .ELSE) ∧ i = m.program.current.length))
      (fun e _ => e.IsFault) (endStatement m) := by
  rw [endStatement, get_bind_apply]
  cases hjumped : m.program.jumped with
  | true =>
    simp only [Bool.true_or, if_true]
    exact .inl ⟨trivial, rfl⟩
  | false =>
    by_cases hend : m.program.atEnd = true
    · simp only [hend, Bool.or_true, if_true]
      exact .inr ⟨trivial, _, rfl, .inl ⟨by simpa [Program.atEnd] using hend, rfl⟩⟩
    · simp only [hend, Bool.or_false, Bool.false_eq_true, if_false]
      rw [bind_apply, accept_apply]
      by_cases hcolon : m.program.peekKind? = some (.mark .colon)
      · rw [if_pos hcolon]
        exact .inr ⟨trivial, _, rfl, .inr (.inl ⟨Program.peek?_of_peekKind?_mark hcolon, rfl⟩)⟩
      · rw [if_neg hcolon]
        by_cases helse : m.program.peekKind? = some (.keyword .ELSE)
        · simp only [if_pos helse, Bool.false_eq_true, if_false]
          exact .inr ⟨trivial, _, rfl, .inr (.inr ⟨Program.peek?_of_peekKind? helse, rfl⟩)⟩
        · simp only [if_neg helse, Bool.false_eq_true, if_false]
          trivial

/-! ### What is executed -/

/-- What a statement at the location of `n` does together with the colon behind it. -/
structure Executed (n m : Machine) : Prop where
  keyword : n.program.peek? ≠ some (.keyword .INPUT)
  kept : ∃ s, n.LeadsTo s ∧ s.program.Kept m.program
  lands : n.program.Lands m.program
  reply : m.reply = none
  branchInput : m.branchInput = n.branchInput

/-- A statement that ends normally is followed by the end of its line, a colon or an `ELSE`, unless
control went elsewhere. -/
theorem Done.concludes_endStatement (h : n.Done m) (hjumped : n.program.jumped = false)
    (hindex : m.program.location.index ≤ m.program.current.length) :
    Concludes (fun _ m' => n.Executed m') (fun e _ => e.IsFault) (endStatement m) := by
  obtain ⟨hinput, ⟨s, hs, hkept⟩, hgoes, hreply, hmarked⟩ := h
  refine (Machine.concludes_endStatement m).mono ?_ fun _ _ he => he
  rintro _ m' (⟨hjump, rfl⟩ | ⟨hstay, i, rfl, hi⟩)
  · refine ⟨hinput, ⟨s, hs, hkept⟩, ?_, hreply, hmarked⟩
    cases hgoes with
    | onward line current jumped belongs =>
      rw [jumped, hjumped] at hjump
      cases hjump
    | dropped line current index => exact .ended line current index
    | start jumped index => exact .start index
    | back loc jumped resumes location => exact .back loc resumes location
  · refine ⟨hinput, ⟨s, hs, hkept.atIndex i⟩, ?_, hreply, hmarked⟩
    cases hgoes with
    | onward line current jumped belongs =>
      rcases hi with ⟨hend, rfl⟩ | ⟨hcolon, rfl⟩ | ⟨-, rfl⟩
      · exact .ended line current
          ((Nat.le_antisymm hindex hend).trans (congrArg List.length current))
      · refine .behind m.program.location.index line current belongs ?_ rfl
        rw [← current]
        exact hcolon
      · exact .ended line current (congrArg List.length current)
    | dropped line current index =>
      rcases hi with ⟨-, rfl⟩ | ⟨hcolon, -⟩ | ⟨-, rfl⟩
      · exact .ended line current index
      · obtain ⟨hlt, -⟩ := List.getElem?_eq_some_iff.mp hcolon
        rw [index, current] at hlt
        omega
      · exact .ended line current (congrArg List.length current)
    | start jumped index =>
      rw [hstay] at jumped
      cases jumped
    | back loc jumped resumes location =>
      rw [hstay] at jumped
      cases jumped

/-- What is executed when there is no reply. -/
theorem concludes_execute (hm : m.Active o) (hreply : m.reply = none) :
    Concludes (fun _ m' => m.atStatement.Executed m') m.atStatement.Halts (execute m) := by
  have hn := active_atStatement hm
  rw [execute_apply]
  split
  · next hend =>
    have hindex : m.atStatement.program.location.index = m.atStatement.program.current.length :=
      Nat.le_antisymm hn.program.index (by simpa [Program.atEnd] using hend)
    have hnone : m.atStatement.program.peek? = none := by
      rw [Program.peek?, hindex, List.getElem?_eq_none (Nat.le_refl _)]
    have hkept : m.atStatement.program.Kept (m.program.skip
        (m.program.rest.takeWhile (· == .mark .colon)).length) :=
      ⟨rfl, rfl, rfl, fun _ hloc => .inl hloc⟩
    have hkeyword : m.atStatement.program.peek? ≠ some (.keyword .INPUT) := by
      rw [hnone]
      exact (Option.some_ne_none _).symm
    exact ⟨hkeyword, ⟨_, .here _, hkept⟩, .ended rfl rfl hindex, hreply, rfl⟩
  · have hstatement := outcome_statement m.atStatement.program.rest.length hn rfl hreply
    have hsafe := safe_statement m.atStatement.program.rest.length m.atStatement hn
    rw [bind_apply]
    cases hend : statement m.atStatement.program.rest.length m.atStatement with
    | ok _ m₁ =>
      rw [hend] at hstatement hsafe
      have hactive : m₁.Active o := hsafe
      refine (Done.concludes_endStatement hstatement rfl hactive.program.index).mono
        (fun _ _ h => h) fun _ m' he => .of_isFault he m'
    | error e m₁ =>
      rw [hend] at hstatement
      exact hstatement

/-- No colon is in front of another token. -/
theorem takeWhile_rest_eq_nil {t : Token} (hpeek : m.program.peek? = some t)
    (ht : t ≠ .mark .colon) : m.program.rest.takeWhile (· == .mark .colon) = [] := by
  obtain ⟨hindex, hget⟩ := List.getElem?_eq_some_iff.mp hpeek
  rw [Program.rest, List.drop_eq_getElem_cons hindex, hget,
    List.takeWhile_cons_of_neg (by simpa using ht)]

/-- A machine that has nothing to skip is at the statement. -/
theorem atStatement_eq {t : Token} (hpeek : m.program.peek? = some t) (ht : t ≠ .mark .colon)
    (hjumped : m.program.jumped = false) : m.atStatement = m := by
  have hprogram : (m.program.skip 0).clearJumped = m.program := by
    rw [Program.clearJumped, Program.skip, ← hjumped]
    rfl
  rw [atStatement, takeWhile_rest_eq_nil hpeek ht, List.length_nil, hprogram]

/-- The place behind the statement at the place `k` and its colon: at the end of the line if no
colon ends the statement. -/
def behindStatement (tokens : List Token) (k : Nat) : Nat :=
  let e := k + 1 + ((tokens.drop (k + 1)).takeWhile (!·.endsStatement)).length
  if tokens[e]? = some (.mark .colon) then e + 1 else tokens.length

/-- A statement ends at the first token that ends a statement. -/
theorem behindStatement_eq {tokens : List Token} {k b : Nat} (hkb : k < b) (hb : b ≤ tokens.length)
    (hinside : Inside tokens (k + 1) b)
    (hend : ∀ t, tokens[b]? = some t → t.endsStatement = true) :
    behindStatement tokens k =
      if tokens[b]? = some (.mark .colon) then b + 1 else tokens.length := by
  have hlength : ((tokens.drop (k + 1)).takeWhile (!·.endsStatement)).length = b - (k + 1) := by
    refine length_takeWhile_eq (by rw [List.length_drop]; omega) (fun i t hi ht => ?_)
      fun t ht => ?_
    · rw [List.getElem?_drop] at ht
      simpa using Token.endsStatement_of_isInner (hinside _ t (by omega) (by omega) ht)
    · rw [List.getElem?_drop, Nat.add_sub_cancel' hkb] at ht
      simpa using hend t ht
  rw [behindStatement, hlength, Nat.add_sub_cancel' hkb]

/-- What an `INPUT` at the location of `n` does with a reply that it accepts, together with the
colon behind it. -/
structure Accepted (n m : Machine) : Prop where
  kept : n.program.Kept m.program
  lands : n.program.Lands m.program
  line : m.program.location.line = n.program.location.line
  current : m.program.current = n.program.current
  reply : m.reply = none
  rest :
    (n.branchInput = some n.program.location ∧ m.branchInput = none ∧
        m.program.location.index = n.program.current.length) ∨
      (n.branchInput ≠ some n.program.location ∧ m.branchInput = n.branchInput ∧
        m.program.location.index =
          behindStatement n.program.current n.program.location.index)

theorem Answered.concludes_endStatement (h : n.Answered m)
    (hkeyword : n.program.peek? = some (.keyword .INPUT)) (hjumped : n.program.jumped = false)
    (hindex : m.program.location.index ≤ m.program.current.length) :
    Concludes (fun _ m' => n.Accepted m') (fun e _ => e.IsFault) (endStatement m) := by
  refine (Machine.concludes_endStatement m).mono ?_ fun _ _ he => he
  rintro _ m' (⟨hjump, -⟩ | ⟨-, i, rfl, hi⟩)
  · rw [h.jumped, hjumped] at hjump
    cases hjump
  · have hkept : n.program.Kept (m.program.atIndex i) := h.kept.atIndex i
    rcases h.rest with ⟨hmarked, hforgotten, hrest⟩ | ⟨hunmarked, hsame, hforward, hinside⟩
    · have hi' : i = n.program.current.length := by
        rcases hi with ⟨-, rfl⟩ | ⟨hcolon, -⟩ | ⟨-, rfl⟩
        · exact hrest
        · obtain ⟨hlt, -⟩ := List.getElem?_eq_some_iff.mp hcolon
          rw [hrest, h.current] at hlt
          omega
        · exact congrArg List.length h.current
      exact ⟨hkept, .ended h.line h.current hi', h.line, h.current, h.reply,
        .inl ⟨hmarked, hforgotten, hi'⟩⟩
    · have hbelongs : Program.Belongs n.program.current n.program.location.index
          m.program.location.index := by
        refine ⟨Nat.le_of_lt hforward, .inl ⟨?_, hinside⟩⟩
        change n.program.peek? ≠ _
        rw [hkeyword]
        nofun
      have hplace := behindStatement_eq hforward (h.current ▸ hindex) hinside
      rcases hi with ⟨hend, rfl⟩ | ⟨hcolon, rfl⟩ | ⟨helse, rfl⟩
      · have hlast := (Nat.le_antisymm hindex hend).trans (congrArg List.length h.current)
        refine ⟨hkept, .ended h.line h.current hlast, h.line, h.current, h.reply,
          .inr ⟨hunmarked, hsame, ?_⟩⟩
        have hnone : n.program.current[m.program.location.index]? = none := by
          rw [hlast, List.getElem?_eq_none (Nat.le_refl _)]
        rw [hplace (by rw [hnone]; nofun), hnone, if_neg nofun]
        exact hlast
      · have hcolon' : n.program.current[m.program.location.index]? = some (.mark .colon) := by
          rw [← h.current]
          exact hcolon
        refine ⟨hkept, .behind _ h.line h.current hbelongs hcolon' rfl, h.line, h.current, h.reply,
          .inr ⟨hunmarked, hsame, ?_⟩⟩
        rw [hplace (by rw [hcolon']; rintro t ⟨⟩; rfl), if_pos hcolon']
        rfl
      · have helse' : n.program.current[m.program.location.index]? = some (.keyword .ELSE) := by
          rw [← h.current]
          exact helse
        refine ⟨hkept, .ended h.line h.current (congrArg List.length h.current), h.line, h.current,
          h.reply, .inr ⟨hunmarked, hsame, ?_⟩⟩
        rw [hplace (by rw [helse']; rintro t ⟨⟩; rfl), helse', if_neg nofun]
        exact congrArg List.length h.current

/-- What is executed when there is a reply. -/
theorem concludes_execute_reply (hm : m.Active o)
    (hkeyword : m.program.peek? = some (.keyword .INPUT)) (hjumped : m.program.jumped = false)
    {reply : Bytes} (hreply : m.reply = some reply) :
    Concludes (fun _ m' => m.Accepted m')
      (fun e m' => e.IsFault ∨
        e = .signal .awaitInput ∧ m.Suspended m' ∧ m'.branchInput = m.branchInput)
      (execute m) := by
  have hn := atStatement_eq hkeyword nofun hjumped
  obtain ⟨hindex, -⟩ := List.getElem?_eq_some_iff.mp hkeyword
  rw [execute_apply, hn, if_neg (by simpa [Program.atEnd] using hindex), bind_apply]
  have hstatement := concludes_statement_reply m.program.rest.length hm hkeyword hreply
  have hsafe := safe_statement m.program.rest.length m hm
  cases hend : statement m.program.rest.length m with
  | ok _ m₁ =>
    rw [hend] at hstatement hsafe
    have hactive : m₁.Active o := hsafe
    exact (Answered.concludes_endStatement hstatement hkeyword hjumped hactive.program.index).mono
      (fun _ _ h => h) fun _ _ he => .inl he
  | error e m₁ =>
    rw [hend] at hstatement
    exact hstatement

/-! ### Steps -/

/-- The machine at the statement that its next step executes, if there is one. -/
def upcoming? (m : Machine) : Option Machine :=
  m.toStatement?.map fun m => m.announce.atStatement

/-- A machine that is in a state already does not change. -/
theorem enter_self {s : State} (h : m.state = s) : m.enter s = m := by
  rw [enter, if_pos h, ← h]

@[simp] theorem enter_reply (m : Machine) (s : State) : (m.enter s).reply = m.reply := by
  rw [enter]
  split <;> rfl

@[simp] theorem enter_prompt (m : Machine) (s : State) : (m.enter s).prompt = m.prompt := by
  rw [enter]
  split <;> rfl

@[simp] theorem enter_branchInput (m : Machine) (s : State) :
    (m.enter s).branchInput = m.branchInput := by
  rw [enter]
  split <;> rfl

@[simp] theorem markBreak_reply (m : Machine) : m.markBreak.reply = m.reply := rfl

@[simp] theorem markBreak_branchInput (m : Machine) :
    m.markBreak.branchInput = m.branchInput := rfl

@[simp] theorem abort_state (m : Machine) (cause : Cause) (line : Line) :
    (m.abort cause line).2.state = .idle := rfl

@[simp] theorem abort_reply (m : Machine) (cause : Cause) (line : Line) :
    (m.abort cause line).2.reply = none :=
  enter_reply _ _

@[simp] theorem abort_program (m : Machine) (cause : Cause) (line : Line) :
    (m.abort cause line).2.program = m.program.resetStacks.clearBreakpoint :=
  enter_program _ _

@[simp] theorem abort_branchInput (m : Machine) (cause : Cause) (line : Line) :
    (m.abort cause line).2.branchInput = none :=
  enter_branchInput _ _

@[simp] theorem announce_program (m : Machine) : m.announce.program = m.program := by
  rw [announce]
  split <;> rfl

@[simp] theorem announce_state (m : Machine) : m.announce.state = m.state := by
  rw [announce]
  split <;> rfl

@[simp] theorem announce_reply (m : Machine) : m.announce.reply = m.reply := by
  rw [announce]
  split <;> rfl

@[simp] theorem announce_branchInput (m : Machine) : m.announce.branchInput = m.branchInput := by
  rw [announce]
  split <;> rfl

/-- A line that is not used up is not left. -/
theorem toStatement?_eq {t : Token} (h : m.program.peek? = some t) : m.toStatement? = some m := by
  obtain ⟨hindex, -⟩ := List.getElem?_eq_some_iff.mp h
  rw [toStatement?, if_neg (by simpa [Program.atEnd] using hindex)]

/-- A line that is used up is followed by the start of another one. -/
theorem toStatement?_eq_some (h : m.toStatement? = some m') :
    m' = m ∧ m.program.location.index < m.program.current.length ∨
      ∃ (line : Line) (tokens : List Token),
        m' = { m with
          program := { m.program with location := line.start, current := tokens } } := by
  rw [toStatement?] at h
  split at h
  · obtain ⟨p, hadvance, rfl⟩ := Option.map_eq_some_iff.mp h
    rw [Program.advance?] at hadvance
    split at hadvance
    · cases hadvance
    · obtain ⟨k, -, hmove⟩ := Option.bind_eq_some_iff.mp hadvance
      obtain ⟨tokens, rfl⟩ := Program.moveTo?_eq_some hmove
      exact .inr ⟨.numbered k, tokens, by simp [Line.start]⟩
  · next hend =>
    cases h
    exact .inl ⟨rfl, by simpa [Program.atEnd] using hend⟩

/-- Only the place in the program changes on the way to a statement. -/
theorem exists_of_toStatement? (h : m.toStatement? = some m') :
    ∃ p, m' = { m with program := p } := by
  rcases toStatement?_eq_some h with ⟨rfl, -⟩ | ⟨line, tokens, rfl⟩
  · exact ⟨m'.program, rfl⟩
  · exact ⟨_, rfl⟩

/-- The ways in which a step of a running machine ends. -/
inductive Stepped (m : Machine) : Option Fault × Machine → Prop where
  /-- There was no next line. -/
  | through (hstart : m.toStatement? = none) : Stepped m (none, m.enter .idle)
  /-- Another statement is to be executed. -/
  | next {m₁ m₂ m₃ : Machine} (hstart : m.toStatement? = some m₁)
      (hend : execute m₁.announce = .ok () m₂) (hnext : m₂.toStatement? = some m₃) :
      Stepped m (none, m₃)
  /-- It was the last statement. -/
  | last {m₁ m₂ : Machine} (hstart : m.toStatement? = some m₁)
      (hend : execute m₁.announce = .ok () m₂) (hnext : m₂.toStatement? = none) :
      Stepped m (none, m₂.enter .idle)
  /-- The run is over. -/
  | finish {m₁ m₂ : Machine} (hstart : m.toStatement? = some m₁)
      (hend : execute m₁.announce = .error (.signal .finish) m₂) :
      Stepped m (none, m₂.enter .idle)
  /-- The run breaks. -/
  | stop {m₁ m₂ : Machine} (hstart : m.toStatement? = some m₁)
      (hend : execute m₁.announce = .error (.signal .stop) m₂) :
      Stepped m (none, m₂.markBreak.enter .idle)
  /-- The run waits. -/
  | await {m₁ m₂ : Machine} (hstart : m.toStatement? = some m₁)
      (hend : execute m₁.announce = .error (.signal .awaitInput) m₂) :
      Stepped m (none, m₂.enter .awaitingInput)
  /-- The statement failed. -/
  | fault {m₁ m₂ : Machine} {cause : Cause} (line : Line) (hstart : m.toStatement? = some m₁)
      (hend : execute m₁.announce = .error (.fault cause) m₂) :
      Stepped m (some (m₂.abort cause line).1, (m₂.abort cause line).2)

/-- A step of a running machine ends in one of these ways. -/
theorem stepped (hrunning : m.state = .running) : m.Stepped m.step := by
  rw [step, if_neg (by simpa using hrunning)]
  split
  · next hstart => exact .through hstart
  · next m₁ hstart =>
    dsimp only
    split
    · next m₂ hend =>
      split
      · next m₃ hnext => exact .next hstart hend hnext
      · next hnext => exact .last hstart hend hnext
    · next m₂ hend => exact .finish hstart hend
    · next m₂ hend => exact .stop hstart hend
    · next m₂ hend => exact .await hstart hend
    · next cause m₂ hend => exact .fault _ hstart hend

/-! ### Submitting a line -/

/-- A machine that is neither running nor waiting. -/
def Stopped (m : Machine) : Prop :=
  ¬(m.state = .running ∨ m.state = .awaitingInput)

/-- What a command does to the program, to the state and to what is remembered about an `INPUT`. -/
inductive Commanded (m m' : Machine) : Prop where
  /-- `RUN` of a program that has lines. -/
  | started (hprogram : m.program.reset.startAtFirst? = some m'.program)
      (hstate : m'.state = .running) (hreply : m'.reply = m.reply)
      (hbranchInput : m'.branchInput = none)
  /-- `RUN` of a program without lines. -/
  | cleared (hprogram : m'.program = m.program.reset) (hstate : m'.Stopped)
      (hreply : m'.reply = m.reply) (hbranchInput : m'.branchInput = none)
  /-- `CONT` of a run that was broken off. -/
  | continued (hprogram : Program.continueRun m.program = .ok () m'.program)
      (hstate : m'.state = .running) (hreply : m'.reply = m.reply)
      (hbranchInput : m'.branchInput = m.branchInput)
  /-- Any other command, and `CONT` in vain. -/
  | idle (hprogram : m'.program = m.program ∨ m'.program = m.program.clearBreakpoint)
      (hstate : m'.Stopped) (hreply : m'.reply = m.reply)
      (hbranchInput : m'.branchInput = m.branchInput)

theorem commanded (hm : m.Stopped) (c : Command) : m.Commanded (m.runCommand c).2 := by
  rw [runCommand.eq_def]
  dsimp only
  cases c with
  | run =>
    dsimp only
    split
    · next p hp =>
      refine .started ?_ rfl (by simp; rfl) (by simp; rfl)
      rw [enter_program]
      exact hp
    · refine .cleared (by simp; rfl) (by simp [Stopped]) (by simp; rfl) (by simp; rfl)
  | list =>
    dsimp only
    split
    · exact .idle (.inl (by simp; rfl)) (by simp [Stopped]) (by simp; rfl) (by simp; rfl)
    · exact .idle (.inl (by simp; rfl)) (by simp [Stopped]) (by simp; rfl) (by simp; rfl)
  | new => exact .idle (.inl (by simp; rfl)) (by simp [Stopped]) (by simp; rfl) (by simp; rfl)
  | cont =>
    dsimp only
    cases hbreak : m.program.breakpoint with
    | none =>
      simp only [record, Program.continueRun, hbreak]
      exact .idle (.inl (by simp)) (by simp [Stopped]) (by simp) (by simp)
    | some loc =>
      cases hmove : m.program.clearBreakpoint.moveTo? loc with
      | none =>
        simp only [record, Program.continueRun, hbreak, hmove]
        exact .idle (.inr (by simp)) (by simp [Stopped]) (by simp) (by simp)
      | some p =>
        simp only [record, Program.continueRun, hbreak, hmove]
        refine .continued ?_ rfl (by simp) (by simp)
        rw [enter_program, Program.continueRun, hbreak]
        dsimp only
        rw [hmove]
  | trace => exact .idle (.inl rfl) hm rfl rfl
  | noTrace => exact .idle (.inl rfl) hm rfl rfl

/-- The ways in which a submitted line is taken. -/
inductive Submitted (m : Machine) (line : Bytes) : Option Fault × Machine → Prop where
  /-- While another line is executed, a line is refused. -/
  | refused (fault : Fault) (hbusy : ¬m.Stopped) : Submitted m line (some fault, m)
  /-- A command is executed. -/
  | command {c : Command} (hstopped : m.Stopped)
      (hcommand : Command.read? (Bytes.trimLineEnds line) = some c) :
      Submitted m line (m.runCommand c)
  /-- A numbered line is stored. -/
  | stored {tokens rest : List Token} {n : Nat} (hstopped : m.Stopped)
      (hcommand : Command.read? (Bytes.trimLineEnds line) = none)
      (hread : Token.read (Bytes.trimLineEnds line) = .ok tokens)
      (hnumbered : numbered? tokens = some (n, rest)) :
      Submitted m line (none, (m.storeLine n rest).enter .idle)
  /-- Any other line is executed. -/
  | executed {tokens : List Token} (hstopped : m.Stopped)
      (hcommand : Command.read? (Bytes.trimLineEnds line) = none)
      (hread : Token.read (Bytes.trimLineEnds line) = .ok tokens)
      (hnumbered : numbered? tokens = none) :
      Submitted m line (none, m.startImmediate tokens)
  /-- An empty line, or one without a meaning, is dropped. -/
  | dropped (fault : Option Fault) (hstopped : m.Stopped) :
      Submitted m line (fault, m.enter .idle)

/-- A submitted line is taken in one of these ways. -/
theorem submitted (m : Machine) (line : Bytes) : m.Submitted line (m.submit line) := by
  rw [submit]
  split
  · next hbusy => exact .refused _ (not_not.mpr hbusy)
  · next hstopped =>
    dsimp only
    split
    · next c hcommand => exact .command hstopped hcommand
    · next hcommand =>
      split
      · exact .dropped _ hstopped
      · next tokens hread =>
        split
        · next n rest hnumbered => exact .stored hstopped hcommand hread hnumbered
        · next hnumbered =>
          split
          · exact .dropped _ hstopped
          · exact .executed hstopped hcommand hread hnumbered

/-- Between two runs a command is executed. -/
theorem submit_command {line : Bytes} {c : Command} (hstopped : m.Stopped)
    (hline : Command.read? (Bytes.trimLineEnds line) = some c) :
    m.submit line = m.runCommand c := by
  rw [submit, if_neg hstopped]
  dsimp only
  rw [hline]

end Machine

end LineBasic
