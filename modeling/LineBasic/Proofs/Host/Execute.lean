import LineBasic.Proofs.Host.Course

/-!
# Executing a line follows its course

A session executes a line in stretches. A stretch goes on until the machine stops, asks for a reply
or has taken what is left of the steps of the line, and its length is counted from its own start.
The course of the line has no stretches and counts its steps from the start of the line. Both do
the same.

## Main definitions

* `Course.Brief` — the line takes no more steps than a session has turns for
* `Course.Rests` — what a stretch of steps leaves behind
* `Course.Meets` — where a line stands after a stretch
* `Session.Executes` — executing a line comes to what its course comes to

## Main results

* `Course.exists_rests_run`, `Course.exists_meets_advance` — a stretch is part of the course
* `Session.exists_executes`, `Session.executes_of_ending` — executing a line comes to what its
  course comes to
-/

namespace LineBasic

open Session (stepper)

namespace Course

variable {c : Course} {s : Session} {base limit n : Nat}

/-- The line takes no more steps than a session has turns for. -/
def Brief (c : Course) : Prop :=
  ∀ k, (c.after k).steps < Stepper.turns c.limit

/-- A line with a bound is brief. -/
theorem brief_of_limit (hlimit : 0 < c.limit) (h : c.steps ≤ c.limit) : c.Brief := by
  intro k
  have hle := steps_le_limit hlimit h k
  rw [Stepper.turns, if_neg (Nat.ne_of_gt hlimit)]
  omega

theorem Brief.after (h : c.Brief) (j : Nat) : (c.after j).Brief := by
  intro k
  rw [after_after, limit_after]
  exact h (k + j)

/-! ### Stretches -/

/-- What a stretch of steps leaves behind, which began after `base` steps of the line. -/
def Rests (c : Course) (base : Nat) : RunEnd × Nat × Session → Prop
  | (.failed fault, _, s) => c.ending = some (some (.fault fault)) ∧ c.session = s.flush
  | (.stepLimit, _, s) => c.ending = some (some .stepLimit) ∧ c.session = s.flush
  | (.stopped, taken, s) =>
    c.ending = none ∧ c.state ≠ .running ∧ c.steps = base + taken ∧ c.session = s.flush
  | (.cancelled, _, _) => False

/-- A stretch of steps is part of the course, if it has turns enough. Its bound is counted from its
own start. -/
theorem exists_rests_run (turns taken : Nat) (hending : c.ending = none)
    (hflush : c.session.flush = c.session) (hsteps : c.steps = base + taken)
    (hlimit : c.limit = if limit = 0 then 0 else base + limit) (hquiet : c.Quiet)
    (hturns : ∀ k, (c.after k).steps < c.steps + turns) :
    ∃ k, (c.after k).replies = c.replies ∧
      (c.after k).Rests base (stepper.run limit turns taken c.session) := by
  induction turns generalizing c taken with
  | zero => exact absurd (hturns 0) (Nat.lt_irrefl _)
  | succ turns ih =>
    rw [Stepper.run]
    have hcancelled : stepper.isCancelled c.session = false := hquiet 0 hending
    have hisRunning : stepper.isRunning c.session = decide (c.state = .running) := rfl
    by_cases hrunning : c.state = .running
    · rw [hisRunning, decide_eq_true hrunning, hcancelled, if_neg (by decide), if_neg (by decide)]
      -- the stretch has used up its bound just when the line has used up its own
      have hfull : (0 < limit && limit ≤ taken) = true ↔ c.Full := by
        rw [Full, hlimit, hsteps, Bool.and_eq_true, decide_eq_true_iff, decide_eq_true_iff]
        split <;> omega
      by_cases hlast : c.Full
      · rw [if_pos (hfull.mpr hlast)]
        refine ⟨1, ?_⟩
        have hturn : c.after 1 = c.breakOff (some .stepLimit) := turn_full hending hrunning hlast
        rw [hturn]
        exact ⟨rfl, rfl, session_breakOff c _⟩
      · rw [if_neg (mt hfull.mp hlast)]
        have hturn : c.turn = c.takeStep := turn_running hending hrunning hlast
        have hstep : stepper.step c.session =
            (c.session.machine.step.1, (c.session.act .step).flush) := rfl
        have htaken : c.takeStep.ending =
            c.session.machine.step.1.map fun fault => some (.fault fault) := rfl
        have hflushed : c.turn.session.flush = c.turn.session := by
          rw [hturn, session_takeStep, Session.flush_flush]
        rw [hstep]
        cases hfault : c.session.machine.step.1 with
        | some fault =>
          refine ⟨1, ?_⟩
          have hone : c.after 1 = c.takeStep := hturn
          rw [hone]
          refine ⟨rfl, htaken.trans (by rw [hfault]; rfl), ?_⟩
          rw [Session.flush_flush, session_takeStep]
        | none =>
          have hnext : c.turn.ending = none := by rw [hturn, htaken, hfault]; rfl
          have hmore : c.turn.steps = base + (taken + 1) := by
            rw [hturn, steps_takeStep, hsteps, Nat.add_assoc]
          obtain ⟨k, hreplies, hrests⟩ := ih (taken + 1) hnext hflushed hmore
            (by rw [limit_turn, hlimit]) (hquiet.after 1) fun k => by
              have := hturns (k + 1)
              rw [after_turn, hmore]
              omega
          refine ⟨k + 1, ?_⟩
          rw [after_turn] at hreplies hrests
          rw [hturn, session_takeStep] at hrests
          exact ⟨hreplies.trans (by rw [hturn]; rfl), hrests⟩
    · rw [hisRunning, decide_eq_false hrunning]
      exact ⟨0, rfl, hending, hrunning, hsteps, hflush.symm⟩

/-- Where a line stands after a stretch: it has ended, or asks for a reply and shows its prompt. -/
def Meets (c : Course) : Session.Pause × Session → Prop
  | (.ended problem, s) => c.ending = some problem ∧ c.session = s
  | (.asks steps, s) =>
    c.ending = none ∧ c.turn = (c.act .prompt).answer ∧ c.steps = steps ∧ c.session.act .prompt = s

/-- A line that does not run has ended, or asks for a reply. -/
theorem exists_meets_pause (hending : c.ending = none) (hrunning : c.state ≠ .running) :
    ∃ k, (c.after k).replies = c.replies ∧ (c.after k).Meets (c.session.pause c.steps) := by
  have hstate : c.session.machine.state = c.state := rfl
  rw [Session.pause, hstate]
  by_cases hasks : c.state = .awaitingInput
  · rw [if_neg (not_not_intro hasks)]
    have hturn := turn_awaiting hending hasks
    rw [ask] at hturn
    by_cases hrefused : (c.session.strictPrompts && !Session.isPrompt c.session.prompt) = true
    · rw [if_pos hrefused] at hturn ⊢
      have hone : c.after 1 = c.breakOff (some .invalidPrompt) := hturn
      exact ⟨1, by rw [hone]; exact ⟨rfl, rfl, session_breakOff c _⟩⟩
    · rw [if_neg hrefused] at hturn ⊢
      exact ⟨0, rfl, hending, hturn, rfl, rfl⟩
  · rw [if_pos hasks]
    have hone : c.after 1 = c.close none := turn_stopped hending hrunning hasks
    exact ⟨1, by rw [hone]; exact ⟨rfl, rfl, rfl⟩⟩

/-- Up to the next reply the session follows the course. -/
theorem exists_meets_advance (hending : c.ending = none) (hsession : c.session = s.flush)
    (hquiet : c.Quiet) (hbrief : c.Brief) :
    ∃ k, (c.after k).replies = c.replies ∧ (c.after k).Meets (s.advance c.steps) := by
  rw [Session.advance, ← hsession]
  have hlimit : c.session.config.maxSteps.toNat = c.limit := by rw [session_config, limit]
  have hstate : c.session.machine.state = c.state := rfl
  rw [hlimit, hstate]
  by_cases hrunning : c.state = .running
  · rw [if_neg (not_not_intro hrunning)]
    -- the steps in front of the last reply may have reached the limit already
    by_cases hfull : 0 < c.limit ∧ c.limit ≤ c.steps
    · rw [if_pos hfull]
      have hone : c.after 1 = c.breakOff (some .stepLimit) := turn_full hending hrunning hfull
      exact ⟨1, by rw [hone]; exact ⟨rfl, rfl, session_breakOff c _⟩⟩
    · rw [if_neg hfull]
      obtain ⟨k, hreplies, hrests⟩ : ∃ k, (c.after k).replies = c.replies ∧
          (c.after k).Rests c.steps (stepper.runAll (c.limit - c.steps) c.session) := by
        refine exists_rests_run _ 0 hending ?_ rfl ?_ hquiet fun k => ?_
        · rw [hsession, Session.flush_flush]
        · split <;> omega
        · have hk := hbrief k
          rw [Stepper.turns] at hk ⊢
          split at hk
          · rw [if_pos (by omega)]; omega
          · rw [if_neg (by omega)]; omega
      revert hrests
      generalize stepper.runAll (c.limit - c.steps) c.session = run
      obtain ⟨ending, taken, t⟩ := run
      intro hrests
      cases ending with
      | failed fault => exact ⟨k, hreplies, hrests⟩
      | stepLimit => exact ⟨k, hreplies, hrests⟩
      | cancelled => exact hrests.elim
      | stopped =>
        obtain ⟨hgoes, hstops, hsteps, hrest⟩ := hrests
        obtain ⟨j, hleft, hmeets⟩ := exists_meets_pause hgoes hstops
        rw [after_after] at hleft hmeets
        rw [hsteps, hrest] at hmeets
        exact ⟨j + k, hleft.trans hreplies, hmeets⟩
  · rw [if_pos hrunning]
    exact exists_meets_pause hending hrunning

/-! ### Replies -/

/-- So it does with its replies, up to the end of the line. -/
theorem exists_drive_eq (p : Session.Pause × Session) (hmeets : c.Meets p) (hquiet : c.Quiet)
    (hbrief : c.Brief) :
    ∃ k problem, (c.after k).ending = some problem ∧
      Session.drive p c.replies = (problem, (c.after k).replies, (c.after k).session) := by
  generalize hreplies : c.replies = replies
  induction replies generalizing c p with
  | nil =>
    obtain ⟨problem | steps, s⟩ := p
    · exact ⟨0, problem, hmeets.1, by rw [Session.drive, ← hreplies, ← hmeets.2]; rfl⟩
    · obtain ⟨hending, hturn, -, rfl⟩ := hmeets
      have hanswer : c.after 1 = (c.act .prompt).breakOff (some .endOfInput) := by
        have hone : c.after 1 = (c.act .prompt).answer := hturn
        rw [hone, answer, show (c.act .prompt).replies = [] from hreplies]
      refine ⟨1, some .endOfInput, by rw [hanswer]; rfl, ?_⟩
      rw [Session.drive, hanswer, session_breakOff, session_act]
      exact congrArg (fun r => (_, r, _)) hreplies.symm
  | cons reply replies ih =>
    obtain ⟨problem | steps, s⟩ := p
    · exact ⟨0, problem, hmeets.1, by rw [Session.drive, ← hreplies, ← hmeets.2]; rfl⟩
    · obtain ⟨hending, hturn, rfl, rfl⟩ := hmeets
      rw [Session.drive]
      have hone : c.after 1 = (c.act .prompt).answer := hturn
      rw [answer, show (c.act .prompt).replies = reply :: replies from hreplies] at hone
      have hbreak : ∀ problem, c.after 1 = { c.act .prompt with replies }.breakOff problem →
          ∃ k q, (c.after k).ending = some q ∧
            Session.drive (.ended problem, (c.session.act .prompt).breakOff) replies =
              (q, (c.after k).replies, (c.after k).session) := by
        intro problem hbroken
        refine ⟨1, problem, by rw [hbroken]; rfl, ?_⟩
        rw [Session.drive, hbroken, session_breakOff]
        exact congrArg (fun s => (_, _, Session.breakOff s)) (session_act c .prompt).symm
      cases reply with
      | interrupt => exact hbreak none hone
      | failure problem => exact hbreak (some problem) hone
      | line text =>
        have hsteps : (c.after 1).steps = c.steps := by
          rw [hone]
          exact (steps_act _ _).trans ((steps_act _ _).trans (steps_act c _))
        have hsession : (c.after 1).session =
            ((c.session.act .prompt).act (.reply text)).flush := by
          rw [hone, session_act, session_act]
          exact congrArg (fun s => ((Session.act s _).act _)) (session_act c .prompt)
        obtain ⟨k, hleft, hmore⟩ := exists_meets_advance (by rw [hone]; exact hending) hsession
          (hquiet.after 1) (hbrief.after 1)
        rw [hsteps, after_after] at hmore
        rw [after_after, hone] at hleft
        obtain ⟨j, problem, hend, hdrive⟩ :=
          ih _ hmore (hquiet.after _) (hbrief.after _) hleft
        rw [after_after] at hend hdrive
        exact ⟨j + (k + 1), problem, hend, hdrive⟩

end Course

namespace Session

variable {s : Session} {line : Bytes} {replies : List Reply}

theorem start_eq {refusal : Option Fault}
    (h : ((s.prepare line).machine.submit line).1 = refusal) :
    s.start line = match refusal with
      | some fault => (.ended (some (.fault fault)), (s.prepare line).act (.submit line))
      | none => ((s.prepare line).act (.submit line)).advance 0 := by
  have hsubmit : (s.dump line).machine.submit line =
      (refusal, ((s.dump line).machine.submit line).2) := Prod.ext h rfl
  rw [start]
  dsimp only
  rw [hsubmit]
  cases refusal <;> rfl

/-- A line that is refused has ended. -/
theorem start_of_fault {fault : Fault}
    (h : ((s.prepare line).machine.submit line).1 = some fault) :
    s.start line = (.ended (some (.fault fault)), (s.prepare line).act (.submit line)) :=
  start_eq h

/-- Any other line goes on until it has ended or asks for a reply. -/
theorem start_of_submitted (h : ((s.prepare line).machine.submit line).1 = none) :
    s.start line = ((s.prepare line).act (.submit line)).advance 0 :=
  start_eq h

/-- Executing a line comes to what its course comes to after `k` turns: the line ends in the same
way, and leaves the same session and the same replies behind. -/
structure Executes (s : Session) (line : Bytes) (replies : List Reply) (k : Nat)
    (problem : Option Problem) : Prop where
  ending : ((s.course line replies).after k).ending = some problem
  result : s.execute line replies = (problem, ((s.course line replies).after k).replies,
    ((s.course line replies).after k).session.finish line)

/-- Executing a line comes to what its course comes to. -/
theorem exists_executes (hline : s.hostCommand? line = none)
    (hquiet : (s.course line replies).Quiet) (hbrief : (s.course line replies).Brief) :
    ∃ k problem, s.Executes line replies k problem := by
  suffices h : ∃ k problem, ((s.course line replies).after k).ending = some problem ∧
      drive (s.start line) replies = (problem, ((s.course line replies).after k).replies,
        ((s.course line replies).after k).session) by
    obtain ⟨k, problem, hending, hdrive⟩ := h
    exact ⟨k, problem, hending, by rw [execute, hline, hdrive]⟩
  cases hsubmit : ((s.prepare line).machine.submit line).1 with
  | some fault =>
    rw [start_of_fault hsubmit, course_of_fault hsubmit]
    exact ⟨0, some (.fault fault), rfl, by rw [drive]; rfl⟩
  | none =>
    have hcourse : s.course line replies =
        (Course.act { origin := s.prepare line, replies } (.submit line)).act .flush :=
      course_of_submitted hsubmit
    have hending : (s.course line replies).ending = none := by rw [hcourse]; rfl
    have hreplies : (s.course line replies).replies = replies := by rw [hcourse]; rfl
    have hsession : (s.course line replies).session =
        ((s.prepare line).act (.submit line)).flush := by rw [hcourse]; rfl
    obtain ⟨k, hleft, hmeets⟩ :=
      Course.exists_meets_advance hending hsession hquiet hbrief
    rw [course_steps] at hmeets
    obtain ⟨j, problem, hend, hdrive⟩ :=
      Course.exists_drive_eq _ hmeets (hquiet.after k) (hbrief.after k)
    rw [Course.after_after] at hend hdrive
    rw [hleft, hreplies] at hdrive
    rw [start_of_submitted hsubmit]
    exact ⟨j + k, problem, hend, hdrive⟩

/-- Wherever its course ends, executing a line ends. -/
theorem executes_of_ending {k : Nat} {problem : Option Problem} (hline : s.hostCommand? line = none)
    (hquiet : (s.course line replies).Quiet)
    (hending : ((s.course line replies).after k).ending = some problem)
    (hsteps : ((s.course line replies).after k).steps <
      Stepper.turns (s.course line replies).limit) :
    s.Executes line replies k problem := by
  have hbrief : (s.course line replies).Brief := by
    intro j
    rcases Nat.le_total j k with hle | hle
    · exact Nat.lt_of_le_of_lt (Course.steps_mono _ hle) hsteps
    · rwa [← Nat.sub_add_cancel hle, ← Course.after_after, Course.after_of_ending hending]
  obtain ⟨j, q, h⟩ := exists_executes hline hquiet hbrief
  have hsame := Course.after_eq_of_ending h.ending hending
  obtain ⟨hend, hresult⟩ := h
  rw [hsame] at hend hresult
  cases hend.symm.trans hending
  exact ⟨hending, hresult⟩

theorem finish_statements (s : Session) (line : Bytes) :
    (s.finish line).statements = s.statements := by
  have hrenew : (if s.flush.machine.state = .newRequested then s.flush.renew
      else s.flush).statements = s.statements := by
    split
    · exact flush_statements s
    · exact flush_statements s
  have hreport : ∀ t : Session, (if isRun line && t.config.stats then
      t.write (Statistics.report t.usage t.statements) else t).statements = t.statements := by
    intro t
    split <;> rfl
  exact (hreport _).trans hrenew

/-- The statements that a session counts are the steps of the course. -/
theorem Executes.statements {k : Nat} {problem : Option Problem}
    (h : s.Executes line replies k problem) :
    (s.execute line replies).2.2.statements =
      (s.prepare line).statements + ((s.course line replies).after k).steps := by
  rw [h.result]
  dsimp only
  rw [finish_statements, Course.session_statements, Course.origin_after, course_origin]

end Session

end LineBasic
