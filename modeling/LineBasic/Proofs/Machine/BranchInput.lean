import LineBasic.Proofs.Machine.Consistency
import LineBasic.Proofs.Machine.Places

/-!
# The rest of the line after an `INPUT`

An `INPUT` that is the statement of a branch of an `IF` drops the rest of its line. When its reply
comes the `IF` is not executed again, so the machine goes by the place that it has remembered for
the branch. That is one place only, and it outlives the run: what a host does in between may make it
the wrong one. As long as no line comes in between that does so, the rest of the line is dropped
exactly if the `INPUT` is directly behind a `THEN` or an `ELSE`.

## Main definitions

* `Machine.Disturbs` — the lines after which the place may be the wrong one
* `Machine.Orderly` — what a host can bring about without such lines

## Main results

* `Machine.Orderly.branchInput_eq_iff` — the place is remembered exactly for an `INPUT` in a branch
* `Machine.accepted_input` — what an `INPUT` does with the rest of its line
-/

namespace LineBasic

/-- An `INPUT` that starts a branch is at the place. -/
def IsBranchInput (tokens : List Token) (i : Nat) : Prop :=
  tokens[i]? = some (.keyword .INPUT) ∧ StartsBranch tokens i

/-- Only an `IF` leads to its branches. -/
theorem persists_not_isBranchInput : Persists fun tokens i => ¬IsBranchInput tokens i where
  start := by
    rintro tokens ⟨-, hbranch⟩
    exact hbranch
  behind := by
    -- a place behind a colon is not behind a `THEN` or an `ELSE`
    rintro tokens a b - - hcolon ⟨-, hthen | helse⟩
    · cases hcolon.symm.trans hthen
    · cases hcolon.symm.trans helse
  remembered := by
    rintro tokens a b k - hkeyword hk hab hinside ⟨-, hbranch⟩
    obtain ⟨c, rfl⟩ := Nat.exists_eq_succ_of_ne_zero (Nat.ne_of_gt (Nat.zero_lt_of_lt hab))
    have hnot : ∀ {k'}, tokens[c]? = some (.keyword k') → k' = .THEN ∨ k' = .ELSE → False := by
      intro k' hat hk'
      by_cases hac : a = c
      · rw [← hac, hkeyword] at hat
        cases hat
        rcases hk with rfl | rfl | rfl
        all_goals simp at hk'
      · have hinner := hinside c _ (by omega) (Nat.lt_succ_self c) hat
        rcases hk' with rfl | rfl
        · cases hinner
        · cases hinner
    rcases hbranch with hthen | helse
    · exact hnot hthen (.inl rfl)
    · exact hnot helse (.inr rfl)

namespace Machine

variable {o : Options} {m m' : Machine}

/-- A submitted line may make the place that is remembered for a branch the wrong one. -/
inductive Disturbs (m : Machine) (line : Bytes) : Prop where
  /-- It is executed between an `INPUT` in a branch and its reply, while the run is broken there. -/
  | between {tokens : List Token} {loc : Location} (spells : Spells line tokens)
      (executed : numbered? tokens = none) (broken : m.program.breakpoint = some loc)
      (remembered : m.branchInput = some loc)
  /-- It is stored, with an `INPUT` in a branch at a place that a pending call or loop goes back
  to. -/
  | behind {tokens rest : List Token} {n i : Nat} (spells : Spells line tokens)
      (stored : numbered? tokens = some (n, rest)) (resumes : m.program.Resumes ⟨.numbered n, i⟩)
      (branch : IsBranchInput rest i)
  /-- It is stored, with an `INPUT` outside all branches at the place remembered for a branch. -/
  | outside {tokens rest : List Token} {n i : Nat} (spells : Spells line tokens)
      (stored : numbered? tokens = some (n, rest))
      (remembered : m.branchInput = some ⟨.numbered n, i⟩)
      (keyword : rest[i]? = some (.keyword .INPUT)) (noBranch : ¬StartsBranch rest i)

/-- What a host can bring about without lines that disturb the place of a branch. -/
inductive Orderly (o : Options) : Machine → Prop where
  | start : Orderly o (new o)
  | perform {m : Machine} (op : Operation) : Orderly o m →
      (∀ line, op = .submit line → ¬m.Disturbs line) → Orderly o (m.perform op)

namespace Orderly

theorem reachable (h : Orderly o m) : Reachable o m := by
  induction h with
  | start => exact .start
  | perform op _ _ ih => exact .perform op ih

/-- An `INPUT` in a branch is executed where its `IF` leads to it, or because the machine waits
there. -/
theorem guarded (h : Orderly o m) : m.Guarded fun tokens i => ¬IsBranchInput tokens i := by
  induction h with
  | start => exact guarded_new o
  | @perform m op h hop ih =>
    refine ih.perform persists_not_isBranchInput h.reachable fun line hline => ?_
    have hcalm := hop line hline
    constructor
    · intro tokens n rest hspells hstored i hi
      refine ⟨fun hresumes hbranch => hcalm (.behind hspells hstored hresumes hbranch),
        fun hremembered hkeyword => ?_⟩
      by_contra hno
      exact hcalm (.outside hspells hstored hremembered hkeyword hno)
    · intro tokens hspells hexecuted loc hbroken
      rcases ih.breakpoint loc hbroken with hplace | ⟨hremembered, -⟩
      · exact hplace
      · exact absurd (.between hspells hexecuted hbroken hremembered) hcalm

/-- The place of an `INPUT` that has its reply is remembered exactly if the `INPUT` is in a branch.
-/
theorem branchInput_eq_iff (h : Orderly o m) {r : Bytes} (hreply : m.reply = some r) :
    m.branchInput = some m.program.location ↔
      StartsBranch m.program.current m.program.location.index := by
  obtain ⟨hrunning, hkeyword⟩ := h.reachable.inputSound.pending r hreply
  have hactive := h.reachable.sound.active hrunning
  obtain ⟨hindex, -⟩ := List.getElem?_eq_some_iff.mp hkeyword
  constructor
  · intro hremembered
    exact h.guarded.branch _ hremembered _ hactive.program.synced hindex hkeyword
  · intro hbranch
    rcases h.guarded.good_or_input hactive hkeyword with hnot | ⟨-, hremembered, -⟩
    · exact absurd ⟨hkeyword, hbranch⟩ hnot
    · exact hremembered

end Orderly

/-! ### A run that waits in a branch -/

/-- A number other than zero chooses the branch behind the `THEN`. -/
theorem chooseBranch_number {x : Float} {tail : List Token}
    (hrest : m.program.rest = .number x :: .keyword .THEN :: tail)
    (htruth : (Value.num x).truth = true) : chooseBranch m = .ok true m.past.past := by
  have hnumber : expression m = .ok (.num x) m.past :=
    expression_number hrest (by simp [BinaryOp.ofToken?])
  have hthen : m.past.program.peekKind? = some (.keyword .THEN) :=
    congrArg (Option.map Token.kind) (Program.peek?_of_rest (rest_past hrest))
  change (ofEval expression >>= _) m = _
  rw [bind_apply, ofEval, hnumber]
  dsimp only
  rw [bind_apply, accept_apply, if_pos hthen]
  simp only [htruth]
  rfl

theorem statement_if {n : Machine} {tokens : Nat} (hkeyword : m.program.peek? = some (.keyword .IF))
    (hchoice : chooseBranch m.past = .ok true n) :
    statement (tokens + 1) m = branch (statement tokens) n := by
  rw [statement, get_bind_apply, hkeyword]
  change ifStatement (statement tokens) m.past = _
  rw [ifStatement_eq, bind_apply, hchoice]
  rfl

/-- The tokens of `IF 1 THEN INPUT A:PRINT 2`. -/
def askingLine : List Token :=
  [.keyword .IF, .number 1, .keyword .THEN, .keyword .INPUT, .symbol (utf8 "A"), .mark .colon,
    .keyword .PRINT, .number 2]

/-- A machine whose program has this line only. -/
def askingStored : Machine :=
  ((new {}).storeLine 10 askingLine).enter .idle

/-- The program starts running. -/
def askingRun : Machine :=
  { (askingStored.record (.command (utf8 "RUN"))).clear with
    program :=
      { askingStored.program.reset with
        location := (Line.numbered 10).start
        current := askingLine } }.enter .running

/-- The machine waits at the `INPUT` in the branch. -/
def askingWait : Machine :=
  { askingRun.announce.atStatement with
    program.location.index := 3
    prompt := usualPrompt
    branchInput := some ⟨.numbered 10, 3⟩ }

theorem step_askingRun : askingRun.step = (none, askingWait.enter .awaitingInput) := by
  have hchoice := chooseBranch_number (m := askingRun.announce.atStatement.past) rfl
    (by decide +kernel)
  have hlength : askingRun.announce.atStatement.program.rest.length = 7 + 1 := rfl
  have hwait : execute askingRun.announce = .error (.signal .awaitInput) askingWait := by
    rw [execute_apply, if_neg (by decide +kernel), bind_apply, hlength, statement_if rfl hchoice]
    rfl
  rw [step, if_neg (by decide), toStatement?_eq (t := .keyword .IF) rfl]
  dsimp only
  rw [hwait]

theorem orderly_askingStored : Orderly {} askingStored := by
  have hread :
      (Token.read (Bytes.trimLineEnds (utf8 "10 IF 1 THEN INPUT A:PRINT 2"))).map numbered? =
        .ok (some (10, askingLine)) := by decide +kernel
  have h : Orderly {} ((new {}).perform (.submit (utf8 "10 IF 1 THEN INPUT A:PRINT 2"))) := by
    refine .perform _ .start fun line _ => ?_
    rintro (⟨-, -, hbroken, -⟩ | ⟨-, -, hresumes, -⟩ | ⟨-, -, hremembered, -⟩)
    · cases hbroken
    · exact Program.not_resumes_nil rfl rfl hresumes
    · cases hremembered
  rw [perform_numbered (by decide +kernel) (by decide +kernel) hread] at h
  exact h

theorem perform_askingStored : askingStored.perform (.submit (utf8 "RUN")) = askingRun :=
  perform_run (by decide +kernel) (startAtFirst?_singleton rfl)

/-- The `INPUT` is given its reply. -/
theorem orderly_askingReply :
    Orderly {} ((askingWait.enter .awaitingInput).perform (.provideInput (utf8 "5"))) := by
  have hrun := orderly_askingStored.perform (.submit (utf8 "RUN")) fun line hline => by
    have hcommand : Command.read? (Bytes.trimLineEnds (utf8 "RUN")) = some .run := by decide +kernel
    obtain rfl := Operation.submit.inj hline
    rintro (⟨hspells, -⟩ | ⟨hspells, -⟩ | ⟨hspells, -⟩)
    all_goals cases hcommand.symm.trans hspells.1
  rw [perform_askingStored] at hrun
  have hwait := hrun.perform .step (by simp)
  rw [perform, step_askingRun] at hwait
  exact hwait.perform _ (by simp)

/-! ### What an `INPUT` does with the rest of its line -/

/-- An `INPUT` that accepts its reply goes to the end of its line if its place is remembered for a
branch, and otherwise behind its own statement. If no line has disturbed the place of a branch, the
first is the case exactly if the `INPUT` is directly behind a `THEN` or an `ELSE`. -/
theorem accepted_input (h : Reachable o m) {r : Bytes} (hreply : m.reply = some r)
    (hend : execute m.announce = .ok () m') :
    m'.program.location.line = m.program.location.line ∧
      m'.program.current = m.program.current ∧
      (m.branchInput = some m.program.location ∧
          m'.program.location.index = m.program.current.length ∨
        m.branchInput ≠ some m.program.location ∧ m'.program.location.index =
          behindStatement m.program.current m.program.location.index) ∧
      (Orderly o m → (m.branchInput = some m.program.location ↔
        StartsBranch m.program.current m.program.location.index)) := by
  obtain ⟨hrunning, hkeyword⟩ := h.inputSound.pending r hreply
  obtain ⟨-, -, haccepted⟩ := h.inputSound.execute_reply h.sound hreply (toStatement?_eq hkeyword)
  rw [hend] at haccepted
  obtain ⟨-, -, hline, hcurrent, -, hrest⟩ := haccepted
  rw [announce_program, announce_branchInput] at hrest
  rw [announce_program] at hline hcurrent
  refine ⟨hline, hcurrent, ?_, fun horderly => horderly.branchInput_eq_iff hreply⟩
  exact hrest.imp (fun h => ⟨h.1, h.2.2⟩) fun h => ⟨h.1, h.2.2⟩

/-- Here the `INPUT` in the branch is given its reply. -/
theorem accepted_input_branch :
    ∃ m m', Reachable {} m ∧ Orderly {} m ∧ m.reply = some (utf8 "5") ∧
      execute m.announce = .ok () m' ∧
      StartsBranch m.program.current m.program.location.index ∧
      m.branchInput = some m.program.location ∧
      m'.program.location.index = m.program.current.length := by
  have h := orderly_askingReply
  generalize hm : (askingWait.enter .awaitingInput).perform (.provideInput (utf8 "5")) = m at h
  have hreply : m.reply = some (utf8 "5") := by
    rw [← hm]
    decide +kernel
  have hbranch : StartsBranch m.program.current m.program.location.index := by
    rw [← hm]
    exact .inl rfl
  cases hend : execute m.announce with
  | ok _ m' =>
    obtain ⟨-, -, hplace, hexactly⟩ := accepted_input h.reachable hreply hend
    have hremembered := (hexactly h).mpr hbranch
    refine ⟨m, m', h.reachable, h, hreply, hend, hbranch, hremembered, ?_⟩
    rcases hplace with ⟨-, hindex⟩ | ⟨hnot, -⟩
    · exact hindex
    · exact absurd hremembered hnot
  | error e m' =>
    have hok : (match execute m.announce with | .ok _ _ => true | .error _ _ => false) = true := by
      rw [← hm]
      decide +kernel
    rw [hend] at hok
    cases hok

end Machine

end LineBasic
