import LineBasic.Host.Session
import Mathlib.Data.List.Count
import Mathlib.Logic.Function.Iterate
import Mathlib.Order.Monotone.Basic

/-!
# The course of a line

Executing a line is a sequence of turns. In each turn the host looks at the machine and does what is
due: a step, a reply, or an end. Nothing bounds the number of turns, so a line that runs for ever
has a course as well. A session comes to an end by cutting its turns into stretches, one up to each
reply, and giving each stretch what is left of its bound; here it is shown that this comes to the
same as the course.

## Main definitions

* `Act` — what a host does with a machine in the course of a line
* `Course` — a line in the middle of its execution
* `Course.turn` — what the host does next
* `Course.Quiet` — the user does not break the line off
* `Session.course` — a line that has been submitted

## Main results

* `Course.steps_le_limit` — no course takes more steps than it may
* `Course.after_eq_of_ending` — a line ends in one way
* `Session.quiet_of_watch` — where nobody watches, nobody breaks off
-/

namespace LineBasic

/-- What a host does in the course of a line. -/
inductive Act where
  | submit (line : Bytes)
  | step
  | reply (text : Bytes)
  | interrupt
  /-- Writes what the machine has shown. -/
  | flush
  /-- Writes what the machine asks. -/
  | prompt
deriving DecidableEq

/-- A session after an act. Steps are counted. -/
def Session.act (s : Session) : Act → Session
  | .submit line => { s with machine := (s.machine.submit line).2 }
  | .step => { s with machine := s.machine.step.2, statements := s.statements + 1 }
  | .reply text => { s with machine := (s.machine.provideInput? text).getD s.machine }
  | .interrupt => { s with machine := s.machine.interrupt }
  | .flush => s.flush
  | .prompt => s.write s.prompt

/-- A line in the middle of its execution: where it began, what was done so far, which replies are
left, and how the line has ended, if it has. -/
structure Course where
  origin : Session
  acts : List Act := []
  replies : List Reply
  ending : Option (Option Problem) := none

namespace Course

/-- The session as it is now. -/
def session (c : Course) : Session :=
  c.acts.foldl Session.act c.origin

/-- Whether the machine is running, waits for a reply, or neither. -/
def state (c : Course) : State :=
  c.session.machine.state

/-- The steps that were taken. -/
def steps (c : Course) : Nat :=
  c.acts.count .step

/-- The steps that the line may take, or 0 if there is no bound. -/
def limit (c : Course) : Nat :=
  c.origin.config.maxSteps.toNat

/-- No more steps may be taken. -/
def Full (c : Course) : Prop :=
  0 < c.limit ∧ c.limit ≤ c.steps

instance (c : Course) : Decidable c.Full :=
  inferInstanceAs (Decidable (_ ∧ _))

/-- Does something. -/
def act (c : Course) (a : Act) : Course :=
  { c with acts := c.acts ++ [a] }

/-- Ends the line, perhaps with a problem. -/
def close (c : Course) (problem : Option Problem) : Course :=
  { c with ending := some problem }

/-- Breaks the line off. -/
def breakOff (c : Course) (problem : Option Problem) : Course :=
  ((c.act .interrupt).act .flush).close problem

/-- Takes a step. A statement that fails ends the line. -/
def takeStep (c : Course) : Course :=
  { (c.act .step).act .flush with
    ending := c.session.machine.step.1.map fun fault => some (.fault fault) }

/-- Gives the next reply to a line that has asked for one. -/
def answer (c : Course) : Course :=
  match c.replies with
  | [] => c.breakOff (some .endOfInput)
  | .line text :: replies => ({ c with replies }.act (.reply text)).act .flush
  | .interrupt :: replies => { c with replies }.breakOff none
  | .failure problem :: replies => { c with replies }.breakOff (some problem)

/-- Asks for a reply, if that can be done. -/
def ask (c : Course) : Course :=
  if c.session.strictPrompts && !Session.isPrompt c.session.prompt then
    c.breakOff (some .invalidPrompt)
  else (c.act .prompt).answer

/-- What the host does next. When the line has ended, nothing is left to do. -/
def turn (c : Course) : Course :=
  if c.ending.isSome then c
  else if c.state = .running then if c.Full then c.breakOff (some .stepLimit) else c.takeStep
  else if c.state = .awaitingInput then c.ask
  else c.close none

/-- The line after so many turns. -/
def after (c : Course) (turns : Nat) : Course :=
  turn^[turns] c

/-- The user does not break the line off. -/
def Quiet (c : Course) : Prop :=
  ∀ k, (c.after k).ending = none → (c.after k).session.cancelled = false

end Course

namespace Session

/-- A session in front of a line. -/
def prepare (s : Session) (line : Bytes) : Session :=
  { s.dump line with
    statements := if isRun line then 0 else (s.dump line).statements
    cancelled := false }

/-- A line that has been submitted. -/
def course (s : Session) (line : Bytes) (replies : List Reply) : Course :=
  let c := Course.act { origin := s.prepare line, replies } (.submit line)
  match ((s.prepare line).machine.submit line).1 with
  | some fault => c.close (some (.fault fault))
  | none => c.act .flush

/-! ### Flushing -/

variable {s : Session}

theorem flush_machine (s : Session) :
    s.flush.machine = { s.machine with output := #[], log := #[] } := by
  rw [flush]
  dsimp only [Machine.takeOutput]
  split <;> rfl

theorem flush_config (s : Session) : s.flush.config = s.config := by
  rw [flush]
  dsimp only [Machine.takeOutput]
  split <;> rfl

theorem flush_statements (s : Session) : s.flush.statements = s.statements := by
  rw [flush]
  dsimp only [Machine.takeOutput]
  split <;> rfl

/-- Nothing is written where nothing was shown. -/
theorem flush_of_shown (houtput : s.machine.output = #[]) (hlog : s.machine.log = #[]) :
    s.flush = s := by
  rw [flush]
  dsimp only [Machine.takeOutput]
  rw [houtput]
  exact (if_pos rfl).trans (by rw [← hlog, ← houtput])

/-- Nothing is left to write after everything was written. -/
theorem flush_flush (s : Session) : s.flush.flush = s.flush :=
  flush_of_shown (by rw [flush_machine]) (by rw [flush_machine])

theorem act_config (s : Session) (a : Act) : (s.act a).config = s.config := by
  cases a with
  | flush => exact flush_config s
  | _ => rfl

theorem act_statements (s : Session) (a : Act) :
    (s.act a).statements = s.statements + if a = .step then 1 else 0 := by
  cases a with
  | flush => exact flush_statements s
  | _ => rfl

/-- Nothing breaks a session off that watches for nothing. -/
theorem act_unwatched (h : s.watch = none ∧ s.cancelled = false) (a : Act) :
    (s.act a).watch = none ∧ (s.act a).cancelled = false := by
  have hwrite : ∀ (t : Session) text, t.watch = none ∧ t.cancelled = false →
      (t.write text).watch = none ∧ (t.write text).cancelled = false := fun t text ht =>
    ⟨ht.1, by rw [write, ht.1, ht.2]; rfl⟩
  cases a with
  | flush =>
    rw [act, flush]
    dsimp only [Machine.takeOutput]
    split
    · exact h
    · exact hwrite _ _ h
  | prompt => exact hwrite s _ h
  | _ => exact h

end Session

namespace Course

variable {c : Course} {k : Nat} {problem : Option Problem}

/-! ### Acts and turns -/

@[simp] theorem session_act (c : Course) (a : Act) : (c.act a).session = c.session.act a := by
  rw [session, act, List.foldl_append]
  rfl

@[simp] theorem session_close (c : Course) : (c.close problem).session = c.session :=
  rfl

theorem session_breakOff (c : Course) (problem : Option Problem) :
    (c.breakOff problem).session = c.session.breakOff := by
  rw [breakOff, session_close, session_act, session_act]
  rfl

theorem session_takeStep (c : Course) : c.takeStep.session = (c.session.act .step).flush := by
  have hsession : c.takeStep.session = ((c.act .step).act .flush).session := rfl
  rw [hsession, session_act, session_act]
  rfl

/-- The configuration stays as it was. -/
theorem session_config (c : Course) : c.session.config = c.origin.config :=
  List.foldlRecOn c.acts Session.act (motive := fun s => s.config = c.origin.config) rfl
    fun s hs a _ => (Session.act_config s a).trans hs

/-- Each step is counted. -/
theorem session_statements (c : Course) :
    c.session.statements = c.origin.statements + c.steps := by
  suffices h : ∀ (acts : List Act) s,
      (acts.foldl Session.act s).statements = s.statements + acts.count .step from h _ _
  intro acts
  induction acts with
  | nil => exact fun _ => rfl
  | cons a acts ih =>
    intro s
    rw [List.foldl_cons, ih, Session.act_statements, List.count_cons, Nat.add_assoc,
      Nat.add_comm (ite _ _ _)]
    simp only [beq_iff_eq]

@[simp] theorem steps_act (c : Course) (a : Act) :
    (c.act a).steps = c.steps + if a = .step then 1 else 0 := by
  rw [steps, act, List.count_append, List.count_singleton, steps]
  by_cases ha : a = .step <;> simp [ha]

@[simp] theorem steps_breakOff (c : Course) : (c.breakOff problem).steps = c.steps := by
  rw [breakOff]
  exact (steps_act _ _).trans (steps_act c _)

@[simp] theorem steps_takeStep (c : Course) : c.takeStep.steps = c.steps + 1 :=
  (steps_act _ _).trans (steps_act c _)

theorem steps_answer (c : Course) : c.answer.steps = c.steps := by
  rw [answer]
  split
  · exact steps_breakOff c
  · exact (steps_act _ _).trans (steps_act _ _)
  · exact steps_breakOff _
  · exact steps_breakOff _

theorem steps_ask (c : Course) : c.ask.steps = c.steps := by
  rw [ask]
  split
  · exact steps_breakOff c
  · exact (steps_answer _).trans (steps_act c _)

theorem origin_turn (c : Course) : c.turn.origin = c.origin := by
  rw [turn, ask, answer]
  repeat' split
  all_goals rfl

theorem limit_turn (c : Course) : c.turn.limit = c.limit := by
  rw [limit, origin_turn, limit]

theorem turn_of_ending (h : c.ending = some problem) : c.turn = c :=
  if_pos (by rw [h]; rfl)

theorem turn_running (h : c.ending = none) (hrunning : c.state = .running) (hroom : ¬c.Full) :
    c.turn = c.takeStep := by
  rw [turn, h, if_neg (by decide), if_pos hrunning, if_neg hroom]

theorem turn_full (h : c.ending = none) (hrunning : c.state = .running) (hfull : c.Full) :
    c.turn = c.breakOff (some .stepLimit) := by
  rw [turn, h, if_neg (by decide), if_pos hrunning, if_pos hfull]

theorem turn_awaiting (h : c.ending = none) (hasks : c.state = .awaitingInput) :
    c.turn = c.ask := by
  rw [turn, h, if_neg (by decide), hasks, if_neg (by decide), if_pos rfl]

theorem turn_stopped (h : c.ending = none) (hrunning : c.state ≠ .running)
    (hasks : c.state ≠ .awaitingInput) : c.turn = c.close none := by
  rw [turn, h, if_neg (by decide), if_neg hrunning, if_neg hasks]

/-- Steps are taken one at a time, by a machine that runs and may take one. -/
theorem steps_turn (c : Course) :
    c.turn.steps =
      c.steps + if c.ending = none ∧ c.state = .running ∧ ¬c.Full then 1 else 0 := by
  cases hending : c.ending with
  | some problem => rw [turn_of_ending hending, if_neg (by simp)]; rfl
  | none =>
    by_cases hrunning : c.state = .running
    · by_cases hfull : c.Full
      · rw [turn_full hending hrunning hfull, if_neg (by simp [hfull]), steps_breakOff]; rfl
      · rw [turn_running hending hrunning hfull, if_pos ⟨rfl, hrunning, hfull⟩, steps_takeStep]
    · rw [if_neg (by simp [hrunning])]
      by_cases hasks : c.state = .awaitingInput
      · rw [turn_awaiting hending hasks, steps_ask]; rfl
      · rw [turn_stopped hending hrunning hasks]; rfl

/-! ### Many turns -/

theorem after_succ (c : Course) (k : Nat) : c.after (k + 1) = (c.after k).turn :=
  Function.iterate_succ_apply' turn k c

theorem after_turn (c : Course) (k : Nat) : c.turn.after k = c.after (k + 1) :=
  (Function.iterate_succ_apply turn k c).symm

theorem after_after (c : Course) (j k : Nat) : (c.after j).after k = c.after (k + j) :=
  (Function.iterate_add_apply turn k j c).symm

theorem origin_after (c : Course) (k : Nat) : (c.after k).origin = c.origin := by
  induction k with
  | zero => rfl
  | succ k ih => rw [after_succ, origin_turn, ih]

theorem limit_after (c : Course) (k : Nat) : (c.after k).limit = c.limit := by
  rw [limit, origin_after, limit]

/-- A line that has ended stays as it is. -/
theorem after_of_ending (h : c.ending = some problem) (k : Nat) : c.after k = c := by
  induction k with
  | zero => rfl
  | succ k ih => rw [after_succ, ih, turn_of_ending h]

/-- A line ends in one way. -/
theorem after_eq_of_ending {j k : Nat} {p q : Option Problem} (hj : (c.after j).ending = some p)
    (hk : (c.after k).ending = some q) : c.after j = c.after k := by
  rcases Nat.le_total j k with hle | hle
  · rw [← Nat.sub_add_cancel hle, ← after_after, after_of_ending hj]
  · rw [← Nat.sub_add_cancel hle, ← after_after, after_of_ending hk]

theorem steps_mono (c : Course) {j k : Nat} (h : j ≤ k) : (c.after j).steps ≤ (c.after k).steps :=
  monotone_nat_of_le_succ (f := fun i => (c.after i).steps)
    (fun i => by rw [after_succ, steps_turn]; exact Nat.le_add_right _ _) h

/-- No line takes more steps than it may. -/
theorem steps_le_limit (hlimit : 0 < c.limit) (h : c.steps ≤ c.limit) (k : Nat) :
    (c.after k).steps ≤ c.limit := by
  induction k with
  | zero => exact h
  | succ k ih =>
    rw [after_succ, steps_turn]
    split
    · rename_i hsteps
      have hroom : ¬(c.limit ≤ (c.after k).steps) := fun hle =>
        hsteps.2.2 ⟨by rwa [limit_after], by rwa [limit_after]⟩
      omega
    · exact ih

/-- Acts break nothing off in a session that watches for nothing. -/
theorem session_unwatched (h : c.origin.watch = none ∧ c.origin.cancelled = false) :
    c.session.cancelled = false :=
  (List.foldlRecOn c.acts Session.act (motive := fun s => s.watch = none ∧ s.cancelled = false) h
    fun _ hs a _ => Session.act_unwatched hs a).2

theorem Quiet.after (h : c.Quiet) (j : Nat) : (c.after j).Quiet := by
  intro k
  rw [after_after]
  exact h (k + j)

end Course

namespace Session

variable {s : Session} {line : Bytes} {replies : List Reply}

theorem course_of_fault {fault : Fault}
    (h : ((s.prepare line).machine.submit line).1 = some fault) :
    s.course line replies =
      (Course.act { origin := s.prepare line, replies } (.submit line)).close
        (some (.fault fault)) := by
  rw [course, h]

theorem course_of_submitted (h : ((s.prepare line).machine.submit line).1 = none) :
    s.course line replies =
      (Course.act { origin := s.prepare line, replies } (.submit line)).act .flush := by
  rw [course, h]

theorem course_origin : (s.course line replies).origin = s.prepare line := by
  rw [course]
  split <;> rfl

theorem course_steps : (s.course line replies).steps = 0 := by
  rw [course]
  split <;> rfl

/-- Preparing a line changes neither who watches nor the configuration. -/
theorem prepare_watch_config (s : Session) (line : Bytes) :
    (s.prepare line).watch = s.watch ∧ (s.prepare line).config = s.config := by
  have hdump : (s.dump line).watch = s.watch ∧ (s.dump line).config = s.config := by
    rw [dump]
    split
    · cases Lexer.run line <;> exact ⟨rfl, rfl⟩
    · exact ⟨rfl, rfl⟩
  exact hdump

theorem course_limit : (s.course line replies).limit = s.config.maxSteps.toNat := by
  rw [Course.limit, course_origin, (s.prepare_watch_config line).2]

/-- Where nobody watches, nobody breaks off. -/
theorem quiet_of_watch (h : s.watch = none) : (s.course line replies).Quiet := fun k _ =>
  Course.session_unwatched (by
    rw [Course.origin_after, course_origin]
    exact ⟨(s.prepare_watch_config line).1.trans h, rfl⟩)

end Session

end LineBasic
