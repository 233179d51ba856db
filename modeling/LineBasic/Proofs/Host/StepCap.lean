import LineBasic.Proofs.Host.Execute
import LineBasic.Proofs.Host.Flush

/-!
# The bound on the steps of a line

A session may bound the steps of a line. Here a session is compared with the same session without
the bound: both do the same, turn by turn, until the bounded one would have to take one step too
many. There it is broken off, and nowhere else.

## Main definitions

* `Session.uncapped`, `Course.uncapped` — without the bound
* `Session.Executes` — what executing a line comes to

## Main results

* `Course.after_uncapped` — up to the bound, the bound makes no difference
* `Course.breaks_off_iff` — where a line is broken off
* `Session.step_cap_exact` — the bound of a session is exact
-/

namespace LineBasic

/-- The same session without a bound on the steps of a line. -/
def Session.uncapped (s : Session) : Session :=
  { s with config := { s.config with maxSteps := 0 } }

/-- The same line without the bound. -/
def Course.uncapped (c : Course) : Course :=
  { c with origin := c.origin.uncapped }

namespace Session

theorem act_uncapped (s : Session) (a : Act) : (s.act a).uncapped = s.uncapped.act a := by
  cases a with
  | flush =>
    rw [act, act, flush, flush]
    dsimp only [Machine.takeOutput]
    have houtput : s.uncapped.machine.output = s.machine.output := rfl
    rw [houtput]
    split <;> rfl
  | _ => rfl

theorem prepare_uncapped (s : Session) (line : Bytes) :
    (s.prepare line).uncapped = s.uncapped.prepare line := by
  have hdump : (s.dump line).uncapped = s.uncapped.dump line := by
    have hdumps : s.uncapped.config.dumpTokens = s.config.dumpTokens := rfl
    rw [dump, dump, hdumps]
    split
    · cases Lexer.run line <;> rfl
    · rfl
  have hprepare : (s.prepare line).uncapped =
      { (s.dump line).uncapped with
        statements := if isRun line then 0 else (s.dump line).uncapped.statements
        cancelled := false } := rfl
  rw [hprepare, hdump]
  rfl

end Session

namespace Course

variable {c : Course} {problem : Option Problem} {k : Nat}

theorem session_uncapped (c : Course) : c.uncapped.session = c.session.uncapped := by
  suffices h : ∀ (acts : List Act) (s : Session),
      acts.foldl Session.act s.uncapped = (acts.foldl Session.act s).uncapped from h _ _
  intro acts
  induction acts with
  | nil => exact fun _ => rfl
  | cons a acts ih =>
    intro s
    rw [List.foldl_cons, ← Session.act_uncapped, ih, List.foldl_cons]

theorem state_uncapped (c : Course) : c.uncapped.state = c.state := by
  rw [state, session_uncapped]
  rfl

theorem not_full_uncapped (c : Course) : ¬c.uncapped.Full :=
  fun h => Nat.lt_irrefl 0 h.1

theorem answer_uncapped (c : Course) : c.answer.uncapped = c.uncapped.answer := by
  have hreplies : c.uncapped.replies = c.replies := rfl
  rw [answer, answer, hreplies]
  split <;> rfl

theorem ask_uncapped (c : Course) : c.ask.uncapped = c.uncapped.ask := by
  rw [ask, ask, session_uncapped]
  change _ = if c.session.strictPrompts && !Session.isPrompt c.session.prompt then _ else _
  split
  · rfl
  · exact answer_uncapped (c.act .prompt)

theorem takeStep_uncapped (c : Course) : c.takeStep.uncapped = c.uncapped.takeStep := by
  rw [takeStep, takeStep, session_uncapped]
  rfl

/-- Unless no more steps may be taken, the bound makes no difference to what is done next. -/
theorem turn_uncapped (h : c.ending = none → c.state = .running → ¬c.Full) :
    c.turn.uncapped = c.uncapped.turn := by
  have hsame : c.uncapped.ending = c.ending := rfl
  cases hending : c.ending with
  | some problem => rw [turn_of_ending hending, turn_of_ending (hsame.trans hending)]
  | none =>
    rw [hending] at hsame
    have hstate := c.state_uncapped
    by_cases hrunning : c.state = .running
    · rw [turn_running hending hrunning (h hending hrunning), takeStep_uncapped,
        turn_running hsame (hstate.trans hrunning) c.not_full_uncapped]
    · by_cases hasks : c.state = .awaitingInput
      · rw [turn_awaiting hending hasks, turn_awaiting hsame (hstate.trans hasks), ask_uncapped]
      · rw [turn_stopped hending hrunning hasks,
          turn_stopped hsame (hstate ▸ hrunning) (hstate ▸ hasks)]
        rfl

/-- Up to the bound, the bound makes no difference. -/
theorem after_uncapped (hlimit : (c.uncapped.after k).steps ≤ c.limit) :
    (c.after k).uncapped = c.uncapped.after k := by
  induction k with
  | zero => rfl
  | succ k ih =>
    have hle := c.uncapped.steps_mono (Nat.le_succ k)
    have hsame := ih (Nat.le_trans hle hlimit)
    rw [after_succ, after_succ, ← hsame]
    refine turn_uncapped fun hending hrunning hfull => ?_
    -- without the bound one step more would be taken here
    have hsteps : (c.uncapped.after k).turn.steps = (c.after k).steps + 1 := by
      rw [← hsame, steps_turn, if_pos ⟨hending, (state_uncapped _).trans hrunning,
        not_full_uncapped _⟩]
      rfl
    rw [after_succ, hsteps] at hlimit
    have hfull := hfull.2
    rw [limit_after] at hfull
    omega

/-- A turn ends a line at the bound, or because a reply reports the bound. -/
theorem full_of_ending_turn (hending : c.ending = none)
    (h : c.turn.ending = some (some .stepLimit)) : c.Full ∨ .failure .stepLimit ∈ c.replies := by
  by_cases hrunning : c.state = .running
  · by_cases hfull : c.Full
    · exact .inl hfull
    · rw [turn_running hending hrunning hfull, takeStep] at h
      cases hfault : c.session.machine.step.1 with
      | none => rw [hfault] at h; cases h
      | some fault => rw [hfault] at h; cases h
  · refine .inr ?_
    by_cases hasks : c.state = .awaitingInput
    · rw [turn_awaiting hending hasks, ask] at h
      split at h
      · cases h
      · have hreplies : (c.act .prompt).replies = c.replies := rfl
        rw [answer, hreplies] at h
        cases hleft : c.replies with
        | nil => rw [hleft] at h; cases h
        | cons reply replies =>
          rw [hleft] at h
          cases reply with
          | line text =>
            have hnone : (none : Option (Option Problem)) = _ := hending.symm.trans h
            cases hnone
          | interrupt => cases h
          | failure problem =>
            cases h
            exact List.mem_cons_self
    · rw [turn_stopped hending hrunning hasks] at h
      cases h

theorem replies_turn (c : Course) : c.turn.replies ⊆ c.replies := by
  have hanswer : ∀ d : Course, d.answer.replies ⊆ d.replies := by
    intro d
    rw [answer]
    split
    · exact List.Subset.refl _
    all_goals
      rename_i hreplies
      rw [hreplies]
      exact List.subset_cons_self _ _
  rw [turn, ask]
  repeat' split
  all_goals first | exact List.Subset.refl _ | exact hanswer (c.act .prompt)

theorem replies_after (c : Course) (k : Nat) : (c.after k).replies ⊆ c.replies := by
  induction k with
  | zero => exact List.Subset.refl _
  | succ k ih =>
    rw [after_succ]
    exact List.Subset.trans (replies_turn _) ih

/-- Without a bound a line reports one only where a reply does. -/
theorem mem_replies_of_ending (hlimit : c.limit = 0) (hstart : c.ending ≠ some (some .stepLimit))
    (h : (c.after k).ending = some (some .stepLimit)) : .failure .stepLimit ∈ c.replies := by
  induction k with
  | zero => exact absurd h hstart
  | succ k ih =>
    rw [after_succ] at h
    cases hending : (c.after k).ending with
    | some problem =>
      rw [turn_of_ending hending] at h
      exact ih h
    | none =>
      rcases full_of_ending_turn hending h with hfull | hreply
      · exact absurd hfull.1 (by rw [limit_after, hlimit]; exact Nat.lt_irrefl 0)
      · exact replies_after c k hreply

/-- A line with a bound is broken off exactly if it would take more steps without one. -/
theorem breaks_off_iff (hlimit : 0 < c.limit) (hsteps : c.steps ≤ c.limit) :
    (∃ k, (c.after k).ending = some (some .stepLimit)) ↔
      (∃ k, c.limit < (c.uncapped.after k).steps) ∨
        ∃ k, (c.uncapped.after k).ending = some (some .stepLimit) := by
  have hover : (∃ k, c.limit < (c.uncapped.after k).steps) →
      ∃ k, (c.after k).ending = some (some .stepLimit) := by
    rintro ⟨k, hk⟩
    induction k with
    | zero => exact absurd hk (Nat.not_lt_of_le hsteps)
    | succ k ih =>
      by_cases hmore : c.limit < (c.uncapped.after k).steps
      · exact ih hmore
      · have hsame := after_uncapped (Nat.le_of_not_lt hmore)
        rw [after_succ, ← hsame, steps_turn] at hk
        rw [← hsame] at hmore
        have hle : (c.after k).steps ≤ c.limit := Nat.le_of_not_lt hmore
        split at hk
        · next hgoes =>
          have hfull : (c.after k).Full := by
            rw [Full, limit_after]
            exact ⟨hlimit, Nat.le_of_lt_succ hk⟩
          have hending : (c.after k).ending = none := hgoes.1
          have hrunning : (c.after k).state = .running :=
            (state_uncapped (c.after k)).symm.trans hgoes.2.1
          exact ⟨k + 1, by rw [after_succ, turn_full hending hrunning hfull]; rfl⟩
        · exact absurd hk (Nat.not_lt_of_le hle)
  constructor
  · rintro ⟨k, hk⟩
    by_cases hmore : c.limit < (c.uncapped.after k).steps
    · exact .inl ⟨k, hmore⟩
    · refine .inr ⟨k, ?_⟩
      rw [← after_uncapped (Nat.le_of_not_lt hmore)]
      exact hk
  · rintro (hmore | ⟨k, hk⟩)
    · exact hover hmore
    · by_cases hmore : c.limit < (c.uncapped.after k).steps
      · exact hover ⟨k, hmore⟩
      · rw [← after_uncapped (Nat.le_of_not_lt hmore)] at hk
        exact ⟨k, hk⟩

/-- What is written in the course of a line is written by its acts, and by the flush behind them. -/
theorem since_session_flush (c : Course) (k : Nat) :
    c.origin.since (c.after k).session.flush =
      c.origin.wrote (fun _ => true) ((c.after k).acts ++ [.flush]) := by
  rw [Session.wrote_eq_since, List.foldl_append, ← origin_after c k]
  rfl

end Course

namespace Session

variable {s : Session} {line : Bytes} {replies : List Reply}

theorem course_uncapped (s : Session) (line : Bytes) (replies : List Reply) :
    (s.course line replies).uncapped = s.uncapped.course line replies := by
  have hmachine : (s.uncapped.prepare line).machine = (s.prepare line).machine := by
    rw [← prepare_uncapped]
    rfl
  rw [course, course, hmachine, ← prepare_uncapped]
  split <;> rfl

theorem course_ending : (s.course line replies).ending ≠ some (some .stepLimit) := by
  intro h
  rw [course] at h
  split at h
  · cases h
  · cases h

/-- The bound of a session is exact and changes nothing else. Executing a line takes no more steps
than it may, whatever replies are given. It reports the bound exactly if the same session without it
would take a step more. Up to there both go through the same states. And in both all that is written
is written by the acts of the course, of which the flushes write all that the machine shows, in
order, however they are cut. -/
theorem step_cap_exact (hcap : 0 < s.config.maxSteps) (hline : s.hostCommand? line = none)
    (hquiet : (s.course line replies).Quiet) :
    (∃ k problem, s.Executes line replies k problem ∧
      ((s.course line replies).after k).steps ≤ s.config.maxSteps.toNat ∧
      (s.execute line replies).2.2.statements =
        (s.prepare line).statements + ((s.course line replies).after k).steps) ∧
    ((s.uncapped.course line replies).Quiet → ∀ k problem,
      ((s.uncapped.course line replies).after k).ending = some problem →
      ((s.uncapped.course line replies).after k).steps < Stepper.turns 0 →
      s.uncapped.Executes line replies k problem) ∧
    ((s.execute line replies).1 = some .stepLimit ↔
      (∃ k, s.config.maxSteps.toNat < ((s.uncapped.course line replies).after k).steps) ∨
        ∃ k, ((s.uncapped.course line replies).after k).ending = some (some .stepLimit)) ∧
    (∀ k, ((s.uncapped.course line replies).after k).ending = some (some .stepLimit) →
      .failure .stepLimit ∈ replies) ∧
    (∀ k, ((s.uncapped.course line replies).after k).steps ≤ s.config.maxSteps.toNat →
      ((s.course line replies).after k).uncapped = (s.uncapped.course line replies).after k) ∧
    ∀ c, c = s.course line replies ∨ c = s.uncapped.course line replies → ∀ k,
      c.origin.since (c.after k).session.flush =
        c.origin.wrote (fun _ => true) ((c.after k).acts ++ [.flush]) ∧
      ∀ cut, cut.filter (· ≠ .flush) = (c.after k).acts.filter (· ≠ .flush) →
        c.origin.wrote (· = .flush) (cut ++ [.flush]) =
          Event.render (c.origin.machine.actAll (c.after k).acts).output.toList := by
  have hlimit : (s.course line replies).limit = s.config.maxSteps.toNat := course_limit
  have hpos : 0 < (s.course line replies).limit := by rw [hlimit]; omega
  have hsteps : (s.course line replies).steps ≤ (s.course line replies).limit := by
    rw [course_steps]
    exact Nat.zero_le _
  have hfree : (s.uncapped.course line replies).limit = 0 := course_limit
  have hreplies : (s.uncapped.course line replies).replies = replies := by
    rw [course]
    split <;> rfl
  have hcourse := course_uncapped s line replies
  obtain ⟨k, problem, h⟩ := exists_executes hline hquiet (Course.brief_of_limit hpos hsteps)
  have hresult : (s.execute line replies).1 = problem := by rw [h.result]
  refine ⟨⟨k, problem, h, ?_, h.statements⟩, fun hnever j q hending hshort => ?_, ?_,
    fun j hending => ?_, fun j hle => ?_, fun c _ j =>
      ⟨c.since_session_flush j, fun cut hcut => c.origin.wrote_flush_cut hcut⟩⟩
  · rw [← hlimit]
    exact Course.steps_le_limit hpos hsteps k
  · refine executes_of_ending ?_ hnever hending (by rwa [hfree])
    rw [hostCommand?] at hline ⊢
    split at hline
    · rfl
    · split at hline
      · cases hline
      · split at hline
        · cases hline
        · rw [if_neg ‹_›, if_neg ‹_›]
  · rw [hresult, ← hlimit, ← hcourse, ← Course.breaks_off_iff hpos hsteps]
    constructor
    · rintro rfl
      exact ⟨k, h.ending⟩
    · rintro ⟨j, hj⟩
      have hsame := Course.after_eq_of_ending h.ending hj
      exact Option.some.inj (h.ending.symm.trans (hsame ▸ hj))
  · rw [← hreplies]
    exact Course.mem_replies_of_ending hfree course_ending hending
  · rw [← hcourse] at hle ⊢
    rw [← hlimit] at hle
    exact Course.after_uncapped hle

/-- A line of three statements, under a bound of two steps. -/
theorem step_cap_exact_line :
    ∃ (s : Session) (line : Bytes), s.config.maxSteps = 2 ∧ s.hostCommand? line = none ∧
      (s.course line []).Quiet ∧ ((s.uncapped.course line []).after 3).steps = 3 ∧
      (s.execute line []).1 = some .stepLimit := by
  let s := Session.new { maxSteps := 2 } 0
  let line := utf8 "PRINT:PRINT:PRINT"
  have hline : s.hostCommand? line = none := by decide +kernel
  have hquiet : (s.course line []).Quiet := quiet_of_watch rfl
  have hsteps : ((s.uncapped.course line []).after 3).steps = 3 := by decide +kernel
  have hexact := step_cap_exact (show 0 < s.config.maxSteps by decide) hline hquiet
  exact ⟨s, line, rfl, hline, hquiet, hsteps,
    hexact.2.2.1.mpr (.inl ⟨3, by rw [hsteps]; decide⟩)⟩

end Session

end LineBasic
