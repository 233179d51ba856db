import LineBasic.Proofs.Expr.Reading
import LineBasic.Proofs.Machine.Consistency
import LineBasic.Proofs.Machine.OutputActions
import LineBasic.Proofs.Machine.Reply
import LineBasic.Proofs.Machine.Retrace

/-!
# Replies that are asked for again

An `INPUT` has no continuation: a reply makes it start again from its keyword. It asks its question
again, that is, it evaluates its prompt and its target, and only then looks at the reply. A reply
that it does not accept leaves the machine where it was, apart from what asking has done: it may
have made arrays, which are found when it asks again, it may have drawn random numbers, and it has
been shown that the reply was no good. If no random number was drawn, then the next reply has the
same effect as if it had been the first.

## Main definitions

* `Machine.answer` — a machine after a reply and one step
* `Machine.Refuses` — replies that are asked for again, none of which draws a random number
* `Machine.asksAgain` — what is shown for each of them

## Main results

* `Machine.execute_given` — a reply is looked at after the question has been asked
* `Machine.answer_refused` — what a reply that is not accepted leaves behind
* `Machine.answer_after_refused` — replies that are not accepted leave no trace but in the output
* `Machine.answer_after_refused_draws` — not so if a random number is drawn or lines are traced
-/

namespace LineBasic.Machine

variable {o : Options} {m m' n : Machine} {text : Bytes} {texts : List Bytes}

/-! ### The question -/

theorem statement_input {tokens : Nat} (hkeyword : m.program.peek? = some (.keyword .INPUT)) :
    statement (tokens + 1) m = inputStatement m.past := by
  rw [statement, get_bind_apply, hkeyword]
  rfl

theorem wanders_question : Wanders Stop.Ordinary question :=
  readRules_wanders.promptText.bind fun _ => readRules_wanders.target.bind fun _ =>
    readRules_wanders.expectStatementEnd.bind fun _ => .pure _

theorem retraces_question : Retraces question :=
  retraces_promptText.bind fun _ => retraces_target.ofEval.bind fun _ =>
    retraces_expectStatementEnd.bind fun _ => .pure _

/-! ### The answer -/

/-- A machine after a reply and one step. -/
def answer (m : Machine) (text : Bytes) : Option Fault × Machine :=
  ((m.provideInput? text).getD m).step

/-- A machine that waits, once it has been given a reply. -/
def given (m : Machine) (text : Bytes) : Machine :=
  { m with reply := some (Bytes.trimLineEnds text) }.enter .running

/-- A machine that has been given a reply, behind the keyword of its `INPUT`. -/
def asking (m : Machine) (text : Bytes) : Machine :=
  (m.given text).announce.past

/-- What an `INPUT` does with its reply once it has asked its question. -/
def respond (keyword : Location) (reply : Bytes) :
    EStateM.Result Stop Machine (Bytes × Target) → EStateM.Result Stop Machine Unit
  | .ok (prompt, t) m =>
    (takeReply t reply prompt keyword >>= fun _ => endStatement) { m with reply := none }
  | .error e m => .error e m

theorem respond_after (keyword : Location) (reply : Bytes) (output : Array Event)
    (log : Array LogRecord) (q : EStateM.Result Stop Machine (Bytes × Target)) :
    respond keyword reply (mapEnd (·.after output log) q) =
      mapEnd (·.after output log) (respond keyword reply q) := by
  cases q with
  | ok asked m =>
    have hadds := (adds_takeReply asked.2 reply asked.1 keyword).bind fun _ => adds_endStatement
    exact hadds { m with reply := none } output log
  | error e m => rfl

/-- A reply is looked at after the question has been asked. -/
theorem execute_given (h : Reachable o m) (hwait : m.state = .awaitingInput) (text : Bytes) :
    (m.given text).announce.Active o ∧
      (m.given text).announce.program.peek? = some (.keyword .INPUT) ∧
      m.answer text = endStep m.program.location.line (execute (m.given text).announce) ∧
      execute (m.given text).announce =
        respond m.program.location (Bytes.trimLineEnds text) (question (m.asking text)) := by
  have hgiven : (m.provideInput? text).getD m = m.given text := by
    rw [provideInput?, if_pos hwait, Option.getD_some, given]
  have hreachable := h.perform (.provideInput text)
  rw [perform, hgiven] at hreachable
  have hprogram : (m.given text).program = m.program := enter_program _ _
  have hreply : (m.given text).reply = some (Bytes.trimLineEnds text) := enter_reply _ _
  have hrunning : (m.given text).state = .running := rfl
  rw [answer, hgiven, asking]
  generalize m.given text = a at hreachable hprogram hreply hrunning ⊢
  obtain ⟨-, hkeyword⟩ := hreachable.inputSound.pending _ hreply
  have hstart := toStatement?_eq hkeyword
  obtain ⟨-, hplace, -⟩ := hreachable.inputSound.execute_reply hreachable.sound hreply hstart
  have hactive := (hreachable.sound.active hrunning).announce
  rw [← announce_program a] at hkeyword hprogram
  rw [← announce_reply a] at hreply
  refine ⟨hactive, hkeyword, ?_, ?_⟩
  · rw [step_eq hrunning hstart, ← announce_program a, hprogram]
  generalize a.announce = n at hkeyword hprogram hreply hplace hactive ⊢
  obtain ⟨hindex, -⟩ := List.getElem?_eq_some_iff.mp hkeyword
  have hlength : n.program.rest.length ≠ 0 := by
    rw [Program.length_rest]
    omega
  obtain ⟨tokens, htokens⟩ := Nat.exists_eq_succ_of_ne_zero hlength
  rw [execute_apply, hplace, if_neg (by simpa [Program.atEnd] using hindex), htokens, bind_apply,
    statement_input hkeyword, ← hprogram, inputStatement_eq, bind_apply]
  have hpast : n.past.Active o := hactive.walked (.skip hkeyword)
  have hasks := concludes_question hpast
  cases hasked : question n.past with
  | error e m₁ => rfl
  | ok asked m₁ =>
    rw [hasked] at hasks
    have hreply₁ : m₁.reply = some (Bytes.trimLineEnds text) := by
      rw [hasks.1.same]
      exact hreply
    dsimp only
    rw [get_bind_apply, hreply₁]
    rfl

/-! ### What came before -/

/-- A machine that has shown and recorded nothing. -/
def blank (m : Machine) : Machine :=
  { m with output := #[], log := #[] }

theorem blank_after (m : Machine) : m.blank.after m.output m.log = m := by
  rw [after, blank]
  dsimp only
  rw [Array.append_empty, Array.append_empty]

/-- What a reply leaves behind, apart from what was shown and recorded before it was looked at. -/
def outcome (m : Machine) (text : Bytes) : Option Fault × Machine :=
  endStep m.program.location.line
    (respond m.program.location (Bytes.trimLineEnds text) (mapEnd blank (question (m.asking text))))

theorem answer_eq_outcome (h : Reachable o m) (hwait : m.state = .awaitingInput) (text : Bytes) :
    m.answer text =
      ((m.outcome text).1,
        (m.outcome text).2.after (m.asking text).output (m.asking text).log) := by
  obtain ⟨hactive, hkeyword, hanswer, hexecute⟩ := execute_given h hwait text
  have hwanders := wanders_question o (m.asking text) (hactive.walked (.skip hkeyword))
  have hquestion : question (m.asking text) =
      mapEnd (·.after (m.asking text).output (m.asking text).log)
        (mapEnd blank (question (m.asking text))) := by
    cases hasked : question (m.asking text) with
    | ok asked m₁ =>
      rw [hasked] at hwanders
      have houtput : m₁.output = (m.asking text).output := by rw [hwanders.same]
      have hlog : m₁.log = (m.asking text).log := by rw [hwanders.same]
      rw [← houtput, ← hlog]
      exact congrArg _ (blank_after m₁).symm
    | error e m₁ =>
      rw [hasked] at hwanders
      have houtput : m₁.output = (m.asking text).output := by rw [hwanders.1.same]
      have hlog : m₁.log = (m.asking text).log := by rw [hwanders.1.same]
      rw [← houtput, ← hlog]
      exact congrArg _ (blank_after m₁).symm
  rw [hanswer, hexecute, outcome]
  exact (congrArg (fun q => endStep _ (respond _ _ q)) hquestion).trans
    ((congrArg (endStep _) (respond_after _ _ _ _ _)).trans (endStep_after _ _ _ _))

/-! ### Replies that are not accepted -/

/-- Only a reply that is asked for again makes the machine wait. -/
theorem takeReply_waits {t : Target} {reply prompt : Bytes} (hn : n.past.Active o)
    (hkeyword : n.program.peek? = some (.keyword .INPUT)) (hreply : n.reply = none)
    (h : n.past.Trod m)
    (hend : (takeReply t reply prompt n.program.location >>= fun _ => endStatement) m =
      .error (.signal .awaitInput) m') :
    m' = { m with
      output := m.output.push (.reenter n.program.location.line)
      program := n.program
      prompt } := by
  have hstore : ∀ v extra, (storeReply t v extra n.program.location >>= fun _ => endStatement) m ≠
      .error (.signal .awaitInput) m' := by
    intro v extra heq
    have hfaults := (answered_storeReply hn (.of_trod h) hreply t v extra).bind
      (R := fun _ _ => True) (f := fun _ => endStatement) fun _ m₁ _ =>
        (concludes_endStatement m₁).mono (fun _ _ _ => trivial) fun _ _ he => he
    rw [heq] at hfaults
    exact hfaults
  rw [takeReply] at hend
  obtain ⟨vs, hvalues⟩ := Field.readAll_eq_cons reply
  dsimp only at hend
  rw [hvalues, firstValue, pure_bind] at hend
  generalize t.name.isString = string, (Field.read reply).1 = first at hend
  cases string with
  | true => exact absurd hend (hstore _ _)
  | false =>
    cases first with
    | num x => exact absurd hend (hstore _ _)
    | str text =>
      have hsuspend := suspend_eq (m := m.emit (.reenter n.program.location.line)) hkeyword
        h.program h.forward h.within h.inside prompt
      dsimp only at hend
      rw [bind_apply, bind_apply, modify_apply] at hend
      dsimp only at hend
      rw [hsuspend] at hend
      cases hend
      rfl

/-- What is shown when a statement is announced. -/
def traced (m : Machine) : Array Event :=
  if m.tracing && m.program.location.line.isNumbered then #[.trace m.program.location.line] else #[]

/-- What is shown for a reply that is asked for again. -/
def asksAgain (m : Machine) : Array Event :=
  m.traced.push (.reenter m.program.location.line)

theorem exists_announce (m : Machine) :
    ∃ log, m.announce = { m with output := m.output ++ m.traced, log } := by
  rw [announce, traced]
  split
  · exact ⟨_, by rw [Array.append_singleton]; rfl⟩
  · exact ⟨_, by rw [Array.append_empty]; rfl⟩

theorem exists_asking (m : Machine) (text : Bytes) :
    ∃ log, m.asking text = { m with
      program := m.program.skip 1
      state := .running
      reply := some (Bytes.trimLineEnds text)
      output := m.output ++ m.traced
      log } := by
  obtain ⟨log, henter⟩ := exists_enter { m with reply := some (Bytes.trimLineEnds text) } .running
  obtain ⟨log', hannounce⟩ := exists_announce (m.given text)
  refine ⟨log', ?_⟩
  rw [asking, hannounce, given, henter]
  rfl

/-- The `INPUT` whose reply is not accepted goes back to its keyword, after its question. -/
theorem execute_refused (h : Reachable o m) (hwait : m.state = .awaitingInput)
    (hrefused : (m.answer text).2.state = .awaitingInput) :
    ∃ asked m₁, question (m.asking text) = .ok asked m₁ ∧ (m.asking text).Trod m₁ ∧
      execute (m.given text).announce = .error (.signal .awaitInput)
        { m₁ with
          reply := none
          output := m₁.output.push (.reenter m.program.location.line)
          program := m.program
          prompt := m.prompt } := by
  obtain ⟨hactive, hkeyword, hanswer, hexecute⟩ := execute_given h hwait text
  have hpast : (m.asking text).Active o := hactive.walked (.skip hkeyword)
  have hsafe := safe_execute _ hactive
  rw [hanswer] at hrefused
  obtain ⟨m₂, hend⟩ := exists_of_endStep_waits (fun m' hend => by
    rw [hend] at hsafe
    exact Active.running hsafe) hrefused
  have hasks := concludes_question hpast
  cases hasked : question (m.asking text) with
  | error e m₁ =>
    rw [hasked] at hasks hexecute
    cases hexecute.symm.trans hend
    cases hasks
  | ok asked m₁ =>
    rw [hasked] at hasks hexecute
    obtain ⟨htrod, hasked₁⟩ := hasks
    have hprogram : (m.given text).announce.program = m.program := by
      rw [announce_program]
      exact enter_program _ _
    have hprompt : asked.1 = m.prompt := by
      obtain ⟨log, hasking⟩ := exists_asking m text
      rw [hasked₁, hasking]
      exact (h.inputSound.settled (.inl hwait)).2.symm
    have htaken : ({ (m.given text).announce with reply := none } : Machine).past.Trod
        { m₁ with reply := none } :=
      ⟨⟨htrod.program, htrod.forward, htrod.within,
        congrArg (fun m => { m with reply := none }) htrod.same, htrod.arrays⟩, htrod.inside⟩
    have hwaits := takeReply_waits (n := { (m.given text).announce with reply := none })
      (hpast.congr rfl rfl rfl) hkeyword rfl htaken
      (by rw [← hexecute.symm.trans hend, ← hprogram]; rfl)
    refine ⟨asked, m₁, rfl, htrod, ?_⟩
    rw [hend, hwaits, hprogram, hprompt]

/-- A reply that is not accepted leaves the machine waiting as it was, apart from the arrays and the
random numbers of the question, and from what is shown. -/
theorem answer_refused (h : Reachable o m) (hwait : m.state = .awaitingInput)
    (hrefused : (m.answer text).2.state = .awaitingInput) :
    ∃ asked m₁ log, question (m.asking text) = .ok asked m₁ ∧
      m.answer text = (none, { m with
        arrays := m₁.arrays
        random := m₁.random
        lastRandom := m₁.lastRandom
        output := m.output ++ m.asksAgain
        log }) := by
  obtain ⟨asked, m₁, hasked, htrod, hend⟩ := execute_refused h hwait hrefused
  obtain ⟨-, -, hanswer, -⟩ := execute_given h hwait text
  obtain ⟨log', hasking⟩ := exists_asking m text
  have hsame := htrod.same
  rw [hasking] at hsame
  rw [hanswer, hend, endStep]
  generalize hm₂ : ({ m₁ with
    reply := none
    output := m₁.output.push (.reenter m.program.location.line)
    program := m.program
    prompt := m.prompt } : Machine) = m₂
  obtain ⟨log, henter⟩ := exists_enter m₂ .awaitingInput
  have hshown : m₁.output.push (.reenter m.program.location.line) = m.output ++ m.asksAgain := by
    rw [hsame, asksAgain, Array.append_push]
  have hreply : m.reply = none := by
    obtain ⟨-, -, s, -, -, -, -, -, -, hsuspended⟩ := h.inputSound.waiting hwait
    exact hsuspended.reply
  have hstill : m = { m with state := .awaitingInput, reply := none } := by
    rw [← hwait, ← hreply]
  refine ⟨asked, m₁, log, hasked, congrArg (Prod.mk none) ?_⟩
  rw [henter, ← hm₂]
  calc
    _ = { m with
          state := .awaitingInput
          reply := none
          arrays := m₁.arrays
          random := m₁.random
          lastRandom := m₁.lastRandom
          output := m₁.output.push (.reenter m.program.location.line)
          log } := by
      rw [hsame]
    _ = _ := by
      rw [hshown]
      exact congrArg (fun m' : Machine => { m' with
        arrays := m₁.arrays
        random := m₁.random
        lastRandom := m₁.lastRandom
        output := m.output ++ m.asksAgain
        log }) hstill.symm

/-- If the question has drawn no random number, the next reply does what it would have done in the
first place. -/
theorem outcome_refused (h : Reachable o m) (hwait : m.state = .awaitingInput)
    (hrefused : (m.answer text).2.state = .awaitingInput)
    (hrandom : (m.answer text).2.random = m.random)
    (hlast : (m.answer text).2.lastRandom = m.lastRandom) (r : Bytes) :
    (m.answer text).2.outcome r = m.outcome r := by
  obtain ⟨asked, m₁, log, hasked, hanswer⟩ := answer_refused h hwait hrefused
  rw [hanswer] at hrandom hlast ⊢
  dsimp only at hrandom hlast
  rw [hrandom, hlast]
  obtain ⟨log₁, hfirst⟩ := exists_asking m text
  obtain ⟨log₂, hsecond⟩ := exists_asking m r
  obtain ⟨log₃, hthird⟩ := exists_asking { m with
    arrays := m₁.arrays
    output := m.output ++ m.asksAgain
    log } r
  -- the question does not depend on the reply
  have hother : (m.asking text).beside (some (Bytes.trimLineEnds r)) (m.output ++ m.traced) log₂ =
      m.asking r := by
    rw [hfirst, hsecond]
    rfl
  obtain ⟨-, hbeside, -⟩ := retraces_question _ _ _ hasked
  have hquestion := hbeside (some (Bytes.trimLineEnds r)) (m.output ++ m.traced) log₂
  rw [hother] at hquestion
  -- and when it is asked again, its arrays are there
  obtain ⟨-, -, hagain⟩ := retraces_question _ _ _ hquestion
  have hquestion' := hagain m₁.arrays fun _ _ hg => hg
  obtain ⟨-, hbeside', -⟩ := retraces_question _ _ _ hquestion'
  have hquestion'' := hbeside' (some (Bytes.trimLineEnds r))
    (m.output ++ m.asksAgain ++ m.traced) log₃
  have hthere : ({ m.asking r with arrays := m₁.arrays } : Machine).beside
      (some (Bytes.trimLineEnds r)) (m.output ++ m.asksAgain ++ m.traced) log₃ =
        { m with arrays := m₁.arrays, output := m.output ++ m.asksAgain, log }.asking r := by
    rw [hsecond, hthird]
    rfl
  rw [hthere] at hquestion''
  rw [outcome, outcome, hquestion, hquestion'']
  rfl

/-! ### A question with subscripts -/

/-- What is left of a question, behind the parenthesis that opens the subscripts of its target. -/
def subscriptQuestion (name : Name) (args : Arguments) : Exec (Bytes × Target) := do
  let m ← get
  let vs ← ofEval (evalArguments (bodyAt m.callsLeft) args)
  let index ← ofEval (ofExcept (indices vs))
  expectStatementEnd
  return (usualPrompt, .element name index)

theorem question_subscripts {name : Name} {ts : Trees} {tail : List Token}
    (hrest : m.program.rest = .symbol name :: .mark .lparen :: (ts.tokens ++ tail)) :
    question m = subscriptQuestion name ts.exprs m.past.past := by
  have hrest₁ : m.past.program.rest = .mark .lparen :: (ts.tokens ++ tail) := rest_past hrest
  have hrest₂ : m.past.past.program.rest = ts.tokens ++ tail := rest_past hrest₁
  have hpeek := Program.peek?_of_rest hrest
  have hread : (Arguments.read m.past.past.program.rest).phrase = ts.exprs := by
    rw [hrest₂]
    exact congrArg Prod.fst (ts.parse_tokens tail)
  have hprompt : promptText m = .ok usualPrompt m := by
    rw [promptText, get_bind_apply, hpeek]
    rfl
  rw [question, bind_apply, hprompt]
  change (ofEval target >>= _) m = _
  rw [bind_apply, ofEval, target_element hrest, bind_apply, subscripts, get_bind_apply, hread,
    subscriptQuestion, get_bind_apply, bind_apply, bind_apply, ofEval]
  cases evalArguments (bodyAt m.past.past.callsLeft) ts.exprs m.past.past with
  | error e m₁ => rfl
  | ok vs m₁ =>
    dsimp only
    rw [bind_apply, ofEval]
    cases indices vs with
    | ok index => rfl
    | error e => rfl

/-- The tokens of `INPUT A(RND(1))`. -/
def drawingLine : List Token :=
  [.keyword .INPUT, .symbol (utf8 "A"), .mark .lparen, .symbol (utf8 "RND"), .mark .lparen,
    .number 1, .mark .rparen, .mark .rparen]

/-- What is left of the question of `drawingLine` behind its first parenthesis. -/
def drawingQuestion : Exec (Bytes × Target) :=
  subscriptQuestion (utf8 "A") (.last (.call (utf8 "RND") (.last (.number 1) .closed)) .closed)

theorem question_drawingLine (hrest : m.program.rest = drawingLine.drop 1) :
    question m = drawingQuestion m.past.past := by
  let ts : Trees := .last (.call (utf8 "RND") (.last (.number 1)))
  have hparenthesized : m.program.rest =
      .symbol (utf8 "A") :: .mark .lparen :: (ts.tokens ++ []) := hrest
  exact question_subscripts hparenthesized

/-- The machine that waits in `drawingLine`. -/
def drawingWait : Machine :=
  match drawingQuestion ((new {}).startImmediate drawingLine).announce.past.past.past with
  | .ok (prompt, _) m => { m with program.location.index := 0, prompt }.enter .awaitingInput
  | .error _ m => m

theorem step_drawingLine : ((new {}).startImmediate drawingLine).step = (none, drawingWait) := by
  have hexecute : execute ((new {}).startImmediate drawingLine).announce =
      (inputStatement >>= fun _ => endStatement)
        ((new {}).startImmediate drawingLine).announce.past := by
    have hlength : ((new {}).startImmediate drawingLine).announce.atStatement.program.rest.length =
        7 + 1 := rfl
    rw [execute_apply, if_neg (by decide +kernel), bind_apply, bind_apply, hlength,
      statement_input rfl]
    rfl
  rw [step_eq rfl (toStatement?_eq (t := .keyword .INPUT) rfl), hexecute, bind_apply,
    inputStatement_eq, bind_apply, question_drawingLine rfl]
  rfl

theorem perform_drawingLine :
    ((new {}).perform (.submit (utf8 "INPUT A(RND(1))"))).perform .step = drawingWait := by
  have hread : Token.read (Bytes.trimLineEnds (utf8 "INPUT A(RND(1))")) = .ok drawingLine := by
    decide +kernel
  rw [perform_immediate (by decide +kernel) (by decide +kernel) hread rfl (by decide +kernel)]
  exact congrArg Prod.snd step_drawingLine

theorem answer_drawingLine (h : Reachable o m) (hwait : m.state = .awaitingInput)
    (hrest : m.program.rest = drawingLine) (text : Bytes) :
    m.answer text = endStep m.program.location.line
      (respond m.program.location (Bytes.trimLineEnds text)
        (drawingQuestion (m.asking text).past.past)) := by
  obtain ⟨-, -, hanswer, hexecute⟩ := execute_given h hwait text
  obtain ⟨log, hasking⟩ := exists_asking m text
  have hrest' : (m.asking text).program.rest = drawingLine.drop 1 := by
    rw [hasking, ← hrest]
    exact Program.rest_skip m.program 1
  rw [hanswer, hexecute, question_drawingLine hrest']

/-! ### Any number of replies -/

/-- Replies that are asked for again one after another, without a random number being drawn. -/
inductive Refuses : Machine → List Bytes → Machine → Prop where
  | none (m : Machine) : Refuses m [] m
  | more {m m' : Machine} {text : Bytes} {texts : List Bytes}
      (waits : (m.answer text).2.state = .awaitingInput)
      (random : (m.answer text).2.random = m.random)
      (lastRandom : (m.answer text).2.lastRandom = m.lastRandom)
      (rest : Refuses (m.answer text).2 texts m') : Refuses m (text :: texts) m'

/-- A machine that has asked again so many times waits as it did before. -/
theorem Refuses.waits_again (hrefuses : Refuses m texts m') (h : Reachable o m)
    (hwait : m.state = .awaitingInput) :
    Reachable o m' ∧ m'.state = .awaitingInput ∧ m'.program = m.program ∧ m'.tracing = m.tracing ∧
      m'.output.toList =
        m.output.toList ++ (List.replicate texts.length m.asksAgain.toList).flatten ∧
      ∀ r, m'.outcome r = m.outcome r := by
  induction hrefuses with
  | none m => exact ⟨h, hwait, rfl, rfl, by simp, fun _ => rfl⟩
  | @more m m' text texts waits random lastRandom rest ih =>
    have hreachable : Reachable o (m.answer text).2 :=
      (h.perform (.provideInput text)).perform .step
    obtain ⟨hagain, hstill, hprogram, htracing, houtput, houtcome⟩ := ih hreachable waits
    have hsame := outcome_refused h hwait waits random lastRandom
    obtain ⟨asked, m₁, log, -, hanswer⟩ := answer_refused h hwait waits
    rw [hanswer] at hprogram htracing houtput
    refine ⟨hagain, hstill, hprogram, htracing, ?_, fun r => (houtcome r).trans (hsame r)⟩
    rw [houtput, List.length_cons, List.replicate_succ, List.flatten_cons, Array.toList_append,
      List.append_assoc]
    rfl

/-- After replies that are asked for again, each without a random number being drawn, a reply has
the effect that it would have had in the first place, on everything but the output and the log. The
output differs by what is shown for each of the replies: that it is asked for again and, while lines
are traced, the line. -/
theorem answer_after_refused (h : Reachable o m) (hwait : m.state = .awaitingInput)
    (hrefuses : Refuses m texts m') (r : Bytes) :
    (m'.answer r).1 = (m.answer r).1 ∧
      (m'.answer r).2 =
        { (m.answer r).2 with output := (m'.answer r).2.output, log := (m'.answer r).2.log } ∧
      ∃ shown, (m.answer r).2.output.toList = m.output.toList ++ shown ∧
        (m'.answer r).2.output.toList = m.output.toList ++
          (List.replicate texts.length
            ((if m.tracing && m.program.location.line.isNumbered then
                [.trace m.program.location.line] else []) ++
              [.reenter m.program.location.line])).flatten ++ shown := by
  obtain ⟨hagain, hstill, hprogram, htracing, houtput, houtcome⟩ := hrefuses.waits_again h hwait
  obtain ⟨log, hasking⟩ := exists_asking m r
  obtain ⟨log', hasking'⟩ := exists_asking m' r
  have htraced : m'.traced = m.traced := by rw [traced, traced, hprogram, htracing]
  have hasks : m.asksAgain.toList =
      (if m.tracing && m.program.location.line.isNumbered then
        [.trace m.program.location.line] else []) ++ [.reenter m.program.location.line] := by
    rw [asksAgain, traced, Array.toList_push]
    split <;> rfl
  rw [answer_eq_outcome h hwait, answer_eq_outcome hagain hstill, houtcome, hasking, hasking']
  refine ⟨rfl, rfl, m.traced.toList ++ (m.outcome r).2.output.toList, ?_, ?_⟩
  · simp only [after, Array.toList_append, List.append_assoc]
  · simp only [after, Array.toList_append, List.append_assoc, houtput, htraced, hasks]

/-- Here two replies that are no numbers come before one that is. -/
theorem answer_after_refused_twice :
    ∃ m m', Reachable {} m ∧ m.state = .awaitingInput ∧ Refuses m [utf8 "X", utf8 "Y"] m' ∧
      (m'.answer (utf8 "5")).1 = (m.answer (utf8 "5")).1 ∧
      (m'.answer (utf8 "5")).2.scalars = (m.answer (utf8 "5")).2.scalars ∧
      (m'.answer (utf8 "5")).2.output.toList = [.reenter .immediate, .reenter .immediate] := by
  have h : Reachable {} (((new {}).perform (.submit (utf8 "INPUT A"))).perform .step) :=
    .perform _ (.perform _ .start)
  generalize hm : ((new {}).perform (.submit (utf8 "INPUT A"))).perform .step = m at h
  have hwait : m.state = .awaitingInput := by
    rw [← hm]
    decide +kernel
  have hrefuses : Refuses m [utf8 "X", utf8 "Y"] ((m.answer (utf8 "X")).2.answer (utf8 "Y")).2 := by
    rw [← hm]
    refine .more (by decide +kernel) (by decide +kernel) (by decide +kernel) ?_
    exact .more (by decide +kernel) (by decide +kernel) (by decide +kernel) (.none _)
  obtain ⟨hfault, hsame, shown, hshown, hshown'⟩ := answer_after_refused h hwait hrefuses (utf8 "5")
  refine ⟨m, _, h, hwait, hrefuses, hfault, ?_, ?_⟩
  · rw [hsame]
  · rw [← hm]
    decide +kernel

/-- A reply that is asked for again does not go without a trace if the subscripts draw a random
number, and it shows more than one event while lines are traced. -/
theorem answer_after_refused_draws :
    (∃ m, m = ((new {}).perform (.submit (utf8 "INPUT A(RND(1))"))).perform .step ∧
      m.state = .awaitingInput ∧ (m.answer (utf8 "X")).2.state = .awaitingInput ∧
      (m.answer (utf8 "5")).1 = none ∧ (m.answer (utf8 "5")).2.state = .idle ∧
      ((m.answer (utf8 "X")).2.answer (utf8 "5")).2.random ≠ (m.answer (utf8 "5")).2.random) ∧
    ∃ m, m = ((((new {}).perform (.submit (utf8 "TRACE"))).perform
        (.submit (utf8 "10 INPUT A"))).perform (.submit (utf8 "RUN"))).perform .step ∧
      m.state = .awaitingInput ∧ (m.answer (utf8 "X")).2.state = .awaitingInput ∧
      (m.answer (utf8 "5")).1 = none ∧ (m.answer (utf8 "5")).2.state = .idle ∧
      ((m.answer (utf8 "X")).2.answer (utf8 "5")).2.output.size =
        (m.answer (utf8 "5")).2.output.size + 2 := by
  refine ⟨⟨_, perform_drawingLine.symm, ?_⟩, ⟨_, rfl, ?_⟩⟩
  · have h : Reachable {} drawingWait := by
      rw [← perform_drawingLine]
      exact .perform _ (.perform _ .start)
    have h' : Reachable {} (drawingWait.answer (utf8 "X")).2 :=
      (h.perform (.provideInput (utf8 "X"))).perform .step
    have hwait : drawingWait.state = .awaitingInput := by decide +kernel
    have hanswer := answer_drawingLine h hwait rfl
    have hwait' : (drawingWait.answer (utf8 "X")).2.state = .awaitingInput := by
      rw [hanswer]
      decide +kernel
    have hrest' : (drawingWait.answer (utf8 "X")).2.program.rest = drawingLine := by
      rw [hanswer]
      decide +kernel
    rw [answer_drawingLine h' hwait' hrest', hanswer, hanswer]
    decide +kernel
  · have hread : (Token.read (Bytes.trimLineEnds (utf8 "10 INPUT A"))).map numbered? =
        .ok (some (10, [.keyword .INPUT, .symbol (utf8 "A")])) := by
      decide +kernel
    rw [perform_numbered (by decide +kernel) (by decide +kernel) hread,
      perform_run (by decide +kernel) (startAtFirst?_singleton rfl)]
    decide +kernel

end LineBasic.Machine
