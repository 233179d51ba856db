import LineBasic.Host.Session
import LineBasic.Proofs.Machine.Advance
import LineBasic.Proofs.Text.LineEnds
import LineBasic.Proofs.Token.White

/-!
# Lines that start a run

A host counts the statements that are executed since the last `RUN`, and may show statistics after
a run. Which lines are runs it finds out by itself: it drops all white space from the line. The
machine recognises `RUN` in another way: it drops the line ends behind the line, and then spaces and
tabs. A line that the machine executes as a `RUN` is always a run for the host, but the reverse does
not hold of a line with other white space in it, such as a vertical tab inside the word: the machine
refuses it, and yet the host counts anew and shows statistics.

## Main definitions

* `Machine.ExecutesRun` — the lines that a machine executes as a `RUN`
* `Session.Plain` — lines without white space that the machine does not drop
* `Session.silent`, `Session.noted` — a session without its count and its statistics, and with them

## Main results

* `Machine.executesRun_iff`, `Session.executesRun_iff` — which lines, and which of the host's runs,
  are runs of the machine
* `Session.exists_refused` — the host's other runs are refused
* `Session.execute_eq` — what a line does to the count and the statistics
-/

namespace LineBasic

theorem Command.read?_eq_run_iff {t : Bytes} : read? t = some .run ↔ squeeze t = utf8 "RUN" := by
  constructor
  · exact Lexer.squeeze_of_read?
  · intro h
    rw [read?, h]
    decide

namespace Machine

open Command (squeeze)

variable {m : Machine} {line : Bytes}

/-! ### The lines that the machine executes as a run -/

theorem log_enter (m : Machine) (s : State) :
    (m.enter s).log = if m.state = s then m.log else m.log.push (.state m.state s) := by
  rw [enter]
  dsimp only
  split <;> rfl

theorem log_enter_getElem? {i : Nat} (hi : i < m.log.size) (s : State) :
    (m.enter s).log[i]? = m.log[i]? := by
  rw [log_enter]
  split
  · rfl
  · rw [Array.getElem?_push, if_neg (by omega)]

/-- A command is written to the log before anything else. -/
theorem log_runCommand (m : Machine) (c : Command) :
    (m.runCommand c).2.log[m.log.size]? = some (.command c.spelling) := by
  have hsize (r : LogRecord) : m.log.size < (m.log.push r).size := by simp
  have hpush (r : LogRecord) : (m.log.push r)[m.log.size]? = some r := by simp
  rw [runCommand.eq_def]
  dsimp only
  cases c with
  | run =>
    dsimp only
    split <;> exact (log_enter_getElem? (hsize _) _).trans (hpush _)
  | list =>
    dsimp only
    split <;> exact (log_enter_getElem? (hsize _) _).trans (hpush _)
  | new => exact (log_enter_getElem? (hsize _) _).trans (hpush _)
  | cont =>
    dsimp only
    split <;> exact (log_enter_getElem? (hsize _) _).trans (hpush _)
  | trace => exact hpush _
  | noTrace => exact hpush _

/-- Without a command, a change of the state is all that is written to the log. -/
theorem log_enter_ne (m : Machine) (s : State) (text : Bytes) :
    (m.enter s).log[m.log.size]? ≠ some (.command text) := by
  rw [log_enter]
  split
  · simp
  · simp

/-- Whether the machine executes a line as a `RUN`. -/
def ExecutesRun (m : Machine) (line : Bytes) : Prop :=
  m.submit line = m.runCommand .run

/-- Between two runs, a `RUN` is a line that squeezes to its spelling. -/
theorem executesRun_iff (hstopped : m.Stopped) :
    m.ExecutesRun line ↔ squeeze (Bytes.trimLineEnds line) = utf8 "RUN" := by
  rw [← Command.read?_eq_run_iff]
  refine ⟨fun h => ?_, submit_command hstopped⟩
  -- the log tells a `RUN` from everything else that a line can do
  have hlog := log_runCommand m .run
  rw [ExecutesRun] at h
  have hsubmitted := submitted m line
  rw [h] at hsubmitted
  obtain ⟨r, hr⟩ : ∃ r, r = m.runCommand .run := ⟨_, rfl⟩
  rw [← hr] at hsubmitted hlog
  cases hsubmitted with
  | refused fault hbusy => exact absurd hstopped hbusy
  | @command c hstopped hcommand =>
    have hspelling : c.spelling = Command.run.spelling := by
      rw [log_runCommand] at hlog
      simpa using hlog
    have hc : c = .run := by
      cases c with
      | run => rfl
      | _ => exact absurd hspelling (by decide)
    rw [hcommand, hc]
  | stored hstopped hcommand hread hnumbered => exact absurd hlog (log_enter_ne _ _ _)
  | executed hstopped hcommand hread hnumbered => exact absurd hlog (log_enter_ne _ _ _)
  | dropped fault hstopped => exact absurd hlog (log_enter_ne _ _ _)

end Machine

namespace Session

open Command (squeeze)

variable {s : Session} {line : Bytes} {k steps : Nat} {stats : Bool}

/-! ### The lines that are runs for the host -/

/-- Whether a line holds only blanks and letters in front of the line ends behind it. -/
def Plain (line : Bytes) : Prop :=
  ∀ b ∈ Bytes.trimLineEnds line, Byte.isBlank b = true ∨ Byte.isLetter b = true

/-- Dropping all white space keeps the letters. -/
theorem filter_flatten_fields (line : Bytes) :
    (Bytes.fields line).flatten.filter Byte.isLetter = line.filter Byte.isLetter :=
  Space.filter_flatten_fieldsFrom (fun _ hb => (Space.isByte_bytes hb).1) 0 [] line

theorem filter_trimLineEnds (line : Bytes) :
    (Bytes.trimLineEnds line).filter Byte.isLetter = line.filter Byte.isLetter := by
  obtain ⟨e, hline, he⟩ := Bytes.exists_lineEnds line
  have hnone : e.filter Byte.isLetter = [] :=
    List.filter_eq_nil_iff.mpr fun b hb => by
      have := he b hb
      grind [Byte.isLineEnd, Byte.isLetter]
  calc (Bytes.trimLineEnds line).filter Byte.isLetter
      = (Bytes.trimLineEnds line).filter Byte.isLetter ++ e.filter Byte.isLetter := by
        rw [hnone, List.append_nil]
    _ = line.filter Byte.isLetter := by rw [← List.filter_append, ← hline]

theorem isLetter_of_map_upper {t w : Bytes} (h : t.map Byte.upper = w)
    (hw : ∀ b ∈ w, Byte.isLetter b = true) : ∀ b ∈ t, Byte.isLetter b = true := by
  intro b hb
  rw [← Lexer.isLetter_upper]
  exact hw _ (h ▸ List.mem_map_of_mem hb)

/-- A run for the host has the letters of `RUN`, and everything else in it is white space. -/
theorem of_isRun (h : isRun line = true) :
    (line.filter Byte.isLetter).map Byte.upper = utf8 "RUN" ∧
      ∀ b ∈ line, Byte.isLetter b = true ∨ Space.isByte b = true := by
  rw [isRun, beq_iff_eq] at h
  have hletters := isLetter_of_map_upper h fun _ hb => Lexer.isLetter_of_mem_spelling (c := .run) hb
  refine ⟨?_, fun b hb => ?_⟩
  · rw [← filter_flatten_fields, List.filter_eq_self.mpr hletters, h]
  · by_cases hspace : Space.isByte b = true
    · exact .inr hspace
    · have hmem : b ∈ line.filter (!Space.isByte ·) :=
        List.mem_filter.mpr ⟨hb, by simpa using hspace⟩
      have hfields := Space.filter_flatten_fieldsFrom (p := (!Space.isByte ·))
        (fun _ hb => by rw [hb]; rfl) 0 [] line
      rw [List.reverse_nil, List.filter_nil, List.nil_append, List.drop_zero] at hfields
      rw [← hfields] at hmem
      exact .inl (hletters b (List.mem_of_mem_filter hmem))

theorem filter_squeeze (t : Bytes) :
    (squeeze t).filter Byte.isLetter = (t.filter Byte.isLetter).map Byte.upper := by
  rw [squeeze, List.filter_map, List.filter_filter]
  refine congrArg _ (List.filter_congr fun b _ => ?_)
  rw [Function.comp_apply, Lexer.isLetter_upper]
  by_cases hletter : Byte.isLetter b = true
  · rw [hletter, Lexer.isBlank_of_isLetter hletter]
    rfl
  · rw [eq_false_of_ne_true hletter, Bool.false_and]

theorem plain_iff :
    Plain line ↔ ∀ b ∈ squeeze (Bytes.trimLineEnds line), Byte.isLetter b = true := by
  constructor
  · intro h b hb
    obtain ⟨a, ha, rfl⟩ := List.mem_map.mp hb
    obtain ⟨hmem, hblank⟩ := List.mem_filter.mp ha
    rw [Lexer.isLetter_upper]
    exact (h a hmem).resolve_left (by simpa using hblank)
  · intro h b hb
    by_cases hblank : Byte.isBlank b = true
    · exact .inl hblank
    · have hmem : Byte.upper b ∈ squeeze (Bytes.trimLineEnds line) :=
        List.mem_map_of_mem (List.mem_filter.mpr ⟨hb, by simpa using hblank⟩)
      rw [← Lexer.isLetter_upper]
      exact .inr (h _ hmem)

/-- Which of the host's runs are runs of the machine: those without white space that the machine
does not drop. -/
theorem squeeze_eq_run_iff :
    squeeze (Bytes.trimLineEnds line) = utf8 "RUN" ↔ isRun line = true ∧ Plain line := by
  constructor
  · intro h
    have hsqueezed : ∀ b ∈ squeeze (Bytes.trimLineEnds line), Byte.isLetter b = true := by
      rw [h]
      exact fun _ hb => Lexer.isLetter_of_mem_spelling (c := .run) hb
    have hplain := plain_iff.mpr hsqueezed
    refine ⟨?_, hplain⟩
    have hletters (b : UInt8) (hb : b ∈ (Bytes.fields line).flatten) : Byte.isLetter b = true := by
      obtain ⟨hmem, hspace⟩ := (Space.of_mem_flatten_fieldsFrom hb).resolve_left (by simp)
      rcases Bytes.mem_or_isLineEnd hmem with htrim | hend
      · refine (hplain b htrim).resolve_left fun hblank => ?_
        exact hspace (Space.mem_encodings (.inl hblank))
      · exact absurd (Space.mem_encodings (.inr hend)) hspace
    rw [isRun, beq_iff_eq, ← h, ← List.filter_eq_self.mpr hletters, filter_flatten_fields,
      ← filter_trimLineEnds, ← filter_squeeze, List.filter_eq_self.mpr hsqueezed]
  · rintro ⟨hrun, hplain⟩
    rw [← List.filter_eq_self.mpr (plain_iff.mp hplain), filter_squeeze, filter_trimLineEnds,
      (of_isRun hrun).1]

theorem executesRun_iff (hstopped : s.machine.Stopped) :
    s.machine.ExecutesRun line ↔ isRun line = true ∧ Plain line := by
  rw [Machine.executesRun_iff hstopped, squeeze_eq_run_iff]

/-- The machine refuses the host's other runs: it cannot read a line with other white space. -/
theorem exists_refused (hidle : s.machine.state = .idle) (hrun : isRun line = true)
    (hplain : ¬Plain line) :
    ∃ cause, s.machine.submit line = (some ⟨cause, .immediate⟩, s.machine) := by
  obtain ⟨hletters, hbytes⟩ := of_isRun hrun
  have hstopped : ¬(s.machine.state = .running ∨ s.machine.state = .awaitingInput) := by
    rw [hidle]
    decide
  have hcommand : Command.read? (Bytes.trimLineEnds line) = none := by
    refine Option.eq_none_iff_forall_ne_some.mpr fun c hc => hplain (plain_iff.mpr ?_)
    rw [Lexer.squeeze_of_read? hc]
    exact fun _ hb => Lexer.isLetter_of_mem_spelling hb
  cases hread : Token.read (Bytes.trimLineEnds line) with
  | error cause =>
    refine ⟨cause, ?_⟩
    rw [Machine.submit, if_neg hstopped]
    dsimp only
    rw [hcommand]
    dsimp only
    rw [hread]
    dsimp only
    rw [Machine.enter_self hidle]
  | ok tokens =>
    have hscans := Lexer.read_eq_ok_iff.mp hread
    refine absurd (plain_iff.mpr (Lexer.isLetter_of_scans hscans (fun b hb => ?_) ?_)) hplain
    · obtain ⟨a, ha, rfl⟩ := List.mem_map.mp hb
      rw [Lexer.isLetter_upper, Lexer.isSpace_upper]
      exact hbytes a ((Bytes.prefix_trimLineEnds line).subset (List.mem_of_mem_filter ha))
    -- no word occurs among the letters of RUN
    · rw [filter_squeeze, filter_trimLineEnds, hletters]
      have hall : ∀ p ∈ Lexer.words, ¬p.1 <:+: utf8 "RUN" := by decide +kernel
      exact fun w => hall _ (Lexer.mem_words w)

/-! ### The count and the statistics -/

/-- The same session with more statements counted, and with or without statistics. -/
def noted (s : Session) (k : Nat) (stats : Bool) : Session :=
  { s with statements := s.statements + k, config := { s.config with stats } }

/-- The same session with no statements counted and without statistics. -/
def silent (s : Session) : Session :=
  { s with statements := 0, config := { s.config with stats := false } }

theorem noted_silent (s : Session) : s.silent.noted s.statements s.config.stats = s := by
  rw [noted, silent, Nat.zero_add]

theorem flush_noted : (s.noted k stats).flush = s.flush.noted k stats := by
  have houtput : (s.noted k stats).machine.output = s.machine.output := rfl
  rw [flush, flush]
  dsimp only [Machine.takeOutput]
  rw [houtput]
  split <;> rfl

theorem breakOff_noted : (s.noted k stats).breakOff = s.breakOff.noted k stats :=
  flush_noted (s := { s with machine := s.machine.interrupt })

theorem dump_noted (line : Bytes) : (s.noted k stats).dump line = (s.dump line).noted k stats := by
  have hdumps : (s.noted k stats).config.dumpTokens = s.config.dumpTokens := rfl
  rw [dump, dump, hdumps]
  split
  · cases Lexer.run line <;> rfl
  · rfl

theorem pause_noted :
    (s.noted k stats).pause steps = (s.pause steps).map id (·.noted k stats) := by
  have hstate : (s.noted k stats).machine.state = s.machine.state := rfl
  have hrefused : ((s.noted k stats).strictPrompts && !isPrompt (s.noted k stats).prompt) =
      (s.strictPrompts && !isPrompt s.prompt) := rfl
  rw [pause, pause, hstate, hrefused]
  split
  · rfl
  · split
    · rw [breakOff_noted]
      rfl
    · rfl

/-- A step of a session counts up from wherever the count is. -/
theorem step_noted :
    stepper.step (s.noted k stats) = (stepper.step s).map id (·.noted k stats) := by
  have hcount : ({ s.noted k stats with
      machine := s.machine.step.2, statements := (s.noted k stats).statements + 1 } : Session) =
        ({ s with machine := s.machine.step.2, statements := s.statements + 1 } : Session).noted
          k stats := by
    rw [noted, noted, Nat.add_right_comm]
  exact Prod.ext rfl ((congrArg flush hcount).trans flush_noted)

/-- The steps of a session count up from wherever the count is. -/
theorem run_noted (limit turns taken : Nat) :
    stepper.run limit turns taken (s.noted k stats) =
      (stepper.run limit turns taken s).map id (Prod.map id (·.noted k stats)) := by
  induction turns generalizing s taken with
  | zero => rfl
  | succ turns ih =>
    have hrunning : stepper.isRunning (s.noted k stats) = stepper.isRunning s := rfl
    have hcancelled : stepper.isCancelled (s.noted k stats) = stepper.isCancelled s := rfl
    rw [Stepper.run, Stepper.run, hrunning, hcancelled, step_noted]
    split
    · rfl
    · split
      · rfl
      · split
        · rfl
        · obtain ⟨fault, s'⟩ := stepper.step s
          cases fault with
          | some fault => rfl
          | none => exact ih (taken + 1)

theorem advance_noted :
    (s.noted k stats).advance steps = (s.advance steps).map id (·.noted k stats) := by
  have hstate : (s.flush.noted k stats).machine.state = s.flush.machine.state := rfl
  have hlimit : (s.flush.noted k stats).config.maxSteps = s.flush.config.maxSteps := rfl
  rw [advance, advance]
  dsimp only [Stepper.runAll]
  rw [flush_noted, hstate, hlimit, run_noted]
  split
  · exact pause_noted
  · split
    · rw [breakOff_noted]
      rfl
    · obtain ⟨ending, taken, s'⟩ := stepper.run _ _ 0 s.flush
      dsimp only [Prod.map]
      rw [flush_noted]
      cases ending with
      | failed fault => rfl
      | stepLimit => rfl
      | stopped => exact pause_noted
      | cancelled => exact pause_noted

theorem answer_noted (reply : Reply) :
    (s.noted k stats).answer steps reply = (s.answer steps reply).map id (·.noted k stats) := by
  cases reply with
  | line text =>
    exact advance_noted
      (s := { s with machine := (s.machine.provideInput? text).getD s.machine })
  | interrupt => exact Prod.ext rfl breakOff_noted
  | failure problem => exact Prod.ext rfl breakOff_noted

/-- Giving replies to a line counts up from wherever the count is. -/
theorem drive_noted (p : Pause × Session) (replies : List Reply) :
    drive (p.map id (·.noted k stats)) replies =
      (drive p replies).map id (Prod.map id (·.noted k stats)) := by
  induction replies generalizing p with
  | nil =>
    obtain ⟨_ | steps, s⟩ := p
    · rfl
    · exact Prod.ext rfl (Prod.ext rfl breakOff_noted)
  | cons reply replies ih =>
    obtain ⟨_ | steps, s⟩ := p
    · rfl
    · calc drive (s.noted k stats |>.answer steps reply) replies
          = drive ((s.answer steps reply).map id (·.noted k stats)) replies := by
            rw [answer_noted]
        _ = _ := ih (s.answer steps reply)

/-- A run sets the count back before it counts. -/
theorem start_noted (line : Bytes) :
    (s.noted k stats).start line =
      (s.start line).map id (·.noted (if isRun line then 0 else k) stats) := by
  rw [start, start]
  dsimp only
  rw [dump_noted]
  have hcount : (if isRun line then 0 else ((s.dump line).noted k stats).statements) =
      (if isRun line then 0 else (s.dump line).statements) + if isRun line then 0 else k := by
    split <;> rfl
  have hmachine : ((s.dump line).noted k stats).machine = (s.dump line).machine := rfl
  rw [hcount, hmachine]
  obtain ⟨fault, machine⟩ := (s.dump line).machine.submit line
  cases fault with
  | some fault => rfl
  | none =>
    exact advance_noted (s := { s.dump line with
      machine
      cancelled := false
      statements := if isRun line then 0 else (s.dump line).statements })

/-! ### What follows a line -/

/-- What is done after every line: all is shown, and a new machine is set up if the line asked for
it. -/
def settle (s : Session) : Session :=
  if s.flush.machine.state = .newRequested then s.flush.renew else s.flush

/-- What is done after a run: statistics are shown if there are to be any. -/
def reported (s : Session) : Session :=
  if s.config.stats then s.write (Statistics.report s.usage s.statements) else s

theorem settle_noted : (s.noted k stats).settle = s.settle.noted k stats := by
  have hstate : (s.flush.noted k stats).machine.state = s.flush.machine.state := rfl
  rw [settle, settle, flush_noted, hstate]
  split <;> rfl

theorem finish_eq (line : Bytes) :
    s.finish line = if isRun line then s.settle.reported else s.settle := by
  rw [finish, ← settle]
  cases isRun line <;> rfl

theorem hostCommand?_noted (line : Bytes) :
    (s.noted k stats).hostCommand? line = (s.hostCommand? line).map (·.noted k stats) := by
  rw [hostCommand?, hostCommand?]
  split
  · rfl
  · split
    · rfl
    · split <;> rfl

theorem execute_of_hostCommand? {line : Bytes} (hhost : s.hostCommand? line = none)
    (replies : List Reply) :
    s.execute line replies =
      (drive (s.start line) replies).map id (Prod.map id (·.finish line)) := by
  rw [execute, hhost]
  rfl

/-- A line does the same whatever the count was and whether statistics are shown or not, apart from
these two: a run sets the count back, and only a run is followed by statistics. -/
theorem execute_eq {line : Bytes} {replies rest : List Reply} {problem : Option Problem}
    {u : Session} (hhost : s.hostCommand? line = none)
    (h : s.silent.execute line replies = (problem, rest, u)) :
    s.execute line replies = (problem, rest,
      if isRun line then (u.noted 0 s.config.stats).reported
      else u.noted s.statements s.config.stats) := by
  have hsilent : s.silent.hostCommand? line = none := by
    rw [← noted_silent s, hostCommand?_noted] at hhost
    exact Option.map_eq_none_iff.mp hhost
  rw [execute_of_hostCommand? hsilent] at h
  obtain ⟨r, hr⟩ : ∃ r, r = drive (s.silent.start line) replies := ⟨_, rfl⟩
  rw [← hr] at h
  have hdrive : drive (s.start line) replies =
      r.map id (Prod.map id (·.noted (if isRun line then 0 else s.statements) s.config.stats)) := by
    calc drive (s.start line) replies
        = drive ((s.silent.noted s.statements s.config.stats).start line) replies := by
          rw [noted_silent]
      _ = _ := by rw [start_noted, drive_noted, hr]
  have hself : r = r.map id (Prod.map id (·.noted 0 false)) := by
    rw [hr, ← drive_noted]
    calc drive (s.silent.start line) replies
        = drive ((s.silent.noted 0 false).start line) replies := rfl
      _ = _ := by rw [start_noted, ite_self]
  obtain ⟨problem', rest', t⟩ := r
  have hself : t = t.noted 0 false := congrArg (·.2.2) hself
  have hstats : t.settle.config.stats = false := by
    rw [hself, settle_noted]
    rfl
  have hsettle : t.finish line = t.settle := by
    rw [finish_eq, reported, hstats]
    exact ite_self _
  cases h
  rw [execute_of_hostCommand? hhost, hdrive]
  dsimp only [Prod.map, id]
  rw [hsettle, finish_eq, settle_noted]
  split <;> rfl

/-- The host counts anew and shows statistics after the lines that are runs for it. These are the
lines that the machine executes as a `RUN`, and lines with other white space, which it refuses. -/
theorem counts_anew (hhost : s.hostCommand? line = none) (hidle : s.machine.state = .idle) :
    (∀ replies problem rest u, s.silent.execute line replies = (problem, rest, u) →
      s.execute line replies = (problem, rest,
        if isRun line then (u.noted 0 s.config.stats).reported
        else u.noted s.statements s.config.stats)) ∧
    (s.machine.ExecutesRun line ↔ isRun line = true ∧ Plain line) ∧
    (isRun line = true → ¬Plain line →
      ∃ cause, s.machine.submit line = (some ⟨cause, .immediate⟩, s.machine)) := by
  have hstopped : s.machine.Stopped := by
    rw [Machine.Stopped, hidle]
    decide
  exact ⟨fun replies problem rest u h => execute_eq hhost h, executesRun_iff hstopped,
    exists_refused hidle⟩

/-- A vertical tab inside the word is dropped by the host only. -/
theorem counts_anew_verticalTab :
    let s := Session.new { stats := true } 0
    let line : Bytes := [0x52, 0x0b, 0x55, 0x4e]
    (∃ cause, s.machine.submit line = (some ⟨cause, .immediate⟩, s.machine)) ∧
      ¬s.machine.ExecutesRun line ∧ ∃ problem rest, ∃ u : Session,
        s.execute line [] = (problem, rest, (u.noted 0 true).reported) := by
  intro s line
  have hhost : s.hostCommand? line = none := by decide +kernel
  obtain ⟨hexecute, hruns, hrefused⟩ := counts_anew hhost rfl
  have hrun : isRun line = true := by decide +kernel
  have hplain : ¬Plain line := by
    unfold Plain
    decide +kernel
  obtain ⟨r, hr⟩ : ∃ r, r = s.silent.execute line [] := ⟨_, rfl⟩
  have hresult := hexecute [] r.1 r.2.1 r.2.2 hr.symm
  rw [if_pos hrun] at hresult
  exact ⟨hrefused hrun hplain, fun h => hplain (hruns.mp h).2, _, _, _, hresult⟩

end Session

end LineBasic
