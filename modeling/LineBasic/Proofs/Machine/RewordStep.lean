import LineBasic.Proofs.Machine.PrintLine
import LineBasic.Proofs.Machine.RewordStatement

/-!
# The end of a step in other words

Two machines whose lines have different words can still be at the same place: in front of the
statement that is worded in two ways, behind it, or on another line. There they go on alike. What is
left of a step when its statement has ended is the same on both: behind the statement the same
tokens follow, the next line is the same one, and a fault has the same effect wherever on the line
it is found.

## Main definitions

* `Machine.Parallel` — two machines at the same place, whose lines have different words
* `Machine.EndsAlike` — two steps with the same end

## Main results

* `Machine.Parallel.toStatement?`, `Machine.Parallel.atStatement` — going on to the next statement
* `Machine.Parallel.together_endStatement` — what comes after the statement
* `Machine.Parallel.endStep`, `Machine.Rewords.endStep` — what is left of a step
-/

namespace LineBasic

namespace Program

variable {p : Program} {y : Rewording}

theorem Has.current (h : p.Has y) (hp : p.Synced) :
    p.current = y.oldText ∨ p.location.line ≠ y.line :=
  h.eq_or_ne hp

/-- Where the line ends with the old words, it ends with the new ones. -/
theorem atEnd_reworded (h : p.Has y) (hp : p.Synced) : (p.reworded y).atEnd = p.atEnd := by
  rw [Bool.eq_iff_iff]
  simp only [atEnd, decide_eq_true_eq]
  by_cases hline : p.location.line = y.line
  · have hcurrent := (h.current hp).resolve_right (absurd hline)
    simp only [Program.reworded, Rewording.text, Rewording.place, if_pos hline, hcurrent]
    constructor
    · intro hend
      by_contra hinside
      have hlt := Rewording.index_lt (Nat.lt_of_not_le hinside)
      omega
    · intro hend
      have hmin := y.min_index p.location.index
      rw [Nat.min_eq_right hend, y.index_length] at hmin
      omega
  · simp only [Program.reworded, Rewording.text, Rewording.place, if_neg hline]

/-- Behind the statement the same tokens follow. -/
theorem rest_reworded (hline : p.location.line = y.line) (hcurrent : p.current = y.oldText)
    (hstop : y.stop ≤ p.location.index) : (p.reworded y).rest = p.rest := by
  simp only [rest, Program.reworded, Rewording.text, Rewording.place, if_pos hline, hcurrent,
    Rewording.drop_index hstop]

/-- In front of the statement the other words come later. -/
theorem rest_reworded_before (hline : p.location.line = y.line) (hcurrent : p.current = y.oldText)
    (hbefore : p.location.index ≤ y.before.length) :
    p.rest = y.before.drop p.location.index ++
        .keyword y.word :: .symbol y.name :: (y.old ++ y.after) ∧
      (p.reworded y).rest = y.before.drop p.location.index ++
        .keyword y.word :: .symbol y.name :: (y.new ++ y.after) := by
  have hstop : ¬ y.stop ≤ p.location.index := by
    rw [Rewording.stop]
    omega
  simp only [rest, Program.reworded, Rewording.text, Rewording.place, if_pos hline, hcurrent,
    Rewording.index, if_neg hstop]
  exact Rewording.drop_before hbefore

theorem skip_reworded {n : Nat}
    (h : p.location.line = y.line → y.index (p.location.index + n) = y.index p.location.index + n) :
    (p.reworded y).skip n = (p.skip n).reworded y := by
  have hplace : ∀ loc : Location, loc = p.location →
      (⟨(y.place loc).line, (y.place loc).index + n⟩ : Location) =
        y.place ⟨loc.line, loc.index + n⟩ := by
    rintro loc rfl
    simp only [Rewording.place]
    split
    · next hline => rw [h hline]
    · rfl
  rw [skip, skip, reworded, reworded, ← hplace p.location rfl]

/-- The end of the line is the end of the line. -/
theorem discardRest_reworded (h : p.Has y) (hp : p.Synced) :
    (p.reworded y).discardRest = p.discardRest.reworded y := by
  have hplace : (⟨p.location.line, (y.text p.location.line p.current).length⟩ : Location) =
      y.place ⟨p.location.line, p.current.length⟩ := by
    simp only [Rewording.place, Rewording.text]
    split
    · next hline => rw [(h.current hp).resolve_right (absurd hline), y.index_length]
    · rfl
  rw [discardRest, discardRest, reworded, reworded, ← hplace]
  rfl

end Program

namespace Machine

variable {y : Rewording} {s s' t t' : Machine}

/-- Two machines with different words on one line, at the same place. -/
structure Parallel (y : Rewording) (s t : Machine) : Prop where
  has : s.program.Has y
  reads : s.ReadsBodies y
  eq : ∃ log, t = { s.reworded y with log }

/-- Without tracing, a statement that is about to be executed is only recorded. -/
theorem announce_eq {m : Machine} (h : m.tracing = false) :
    m.announce = m.record (.statement m.program.location) := by
  rw [announce, h]
  rfl

theorem Active.upcoming? {o : Options} {m m' : Machine} (h : m.Active o)
    (hnext : m.upcoming? = some m') : m'.Active o := by
  obtain ⟨m₁, hstart, rfl⟩ := Option.map_eq_some_iff.mp hnext
  exact active_atStatement (h.toStatement? hstart).announce

/-- Going on to the next statement changes the place, and the statement is recorded. -/
theorem upcoming?_eq_some {m m' : Machine} (h : m.upcoming? = some m')
    (hquiet : m.tracing = false) :
    ∃ loc tokens log, m' = { m with
      program := { m.program with location := loc, current := tokens, jumped := false }, log } := by
  obtain ⟨m₁, hstart, rfl⟩ := Option.map_eq_some_iff.mp h
  have hquiet₁ : m₁.tracing = false := by
    obtain ⟨p, rfl⟩ := exists_of_toStatement? hstart
    exact hquiet
  rw [announce_eq hquiet₁]
  rcases toStatement?_eq_some hstart with ⟨rfl, -⟩ | ⟨line, tokens, rfl⟩
  · exact ⟨_, _, _, rfl⟩
  · exact ⟨_, _, _, rfl⟩

namespace Parallel

theorem rewords (h : Parallel y s t) : Rewords y s t := by
  obtain ⟨hhas, hreads, log, rfl⟩ := h
  exact ⟨hhas, hreads, (y.place s.program.location).index, log, rfl⟩

theorem enter (h : Parallel y s t) (state : State) :
    Parallel y (s.enter state) (t.enter state) := by
  obtain ⟨hhas, hreads, log, rfl⟩ := h
  rw [Machine.enter, Machine.enter]
  split <;> split <;> exact ⟨hhas, hreads, _, rfl⟩

theorem record (h : Parallel y s t) (r r' : LogRecord) :
    Parallel y (s.record r) (t.record r') := by
  obtain ⟨hhas, hreads, log, rfl⟩ := h
  exact ⟨hhas, hreads, _, rfl⟩

theorem program (h : Parallel y s t) : t.program = s.program.reworded y := by
  obtain ⟨hhas, hreads, log, rfl⟩ := h
  rfl

/-- Both machines go on to the same line, or neither does. -/
theorem toStatement? (h : Parallel y s t) (hs : s.program.Synced) :
    s.toStatement? = none ∧ t.toStatement? = none ∨
      ∃ s' t', s.toStatement? = some s' ∧ t.toStatement? = some t' ∧ Parallel y s' t' := by
  have hend : t.program.atEnd = s.program.atEnd := h.program ▸ Program.atEnd_reworded h.has hs
  have hadvance : t.program.advance? = s.program.advance?.map (·.reworded y) :=
    h.program ▸ Program.advance?_reworded h.has
  rw [Machine.toStatement?, Machine.toStatement?, hend, hadvance]
  split
  · cases hnext : s.program.advance? with
    | none => exact .inl ⟨rfl, rfl⟩
    | some p =>
      obtain ⟨hhas, hreads, log, rfl⟩ := h
      rw [Program.advance?] at hnext
      split at hnext
      · cases hnext
      · obtain ⟨n, -, hmove⟩ := Option.bind_eq_some_iff.mp hnext
        obtain ⟨tokens, rfl⟩ := Program.moveTo?_eq_some hmove
        exact .inr ⟨_, _, rfl, rfl, hhas, hreads, log, rfl⟩
  · exact .inr ⟨s, t, rfl, rfl, h⟩

/-- Behind the colons in front of it, the statement that is worded in two ways starts at the same
place. -/
theorem atStatement (h : Parallel y s t) (hs : s.program.Synced)
    (hline : s.program.location.line = y.line)
    (hindex : s.atStatement.program.location.index = y.before.length) :
    Parallel y s.atStatement t.atStatement := by
  have hcurrent := (h.has.current hs).resolve_right (absurd hline)
  have hsum : s.program.location.index +
      (s.program.rest.takeWhile (· == .mark .colon)).length = y.before.length := hindex
  obtain ⟨hold, hnew⟩ := Program.rest_reworded_before hline hcurrent (by omega)
  have hbefore : s.program.rest.takeWhile (· == .mark .colon) =
      y.before.drop s.program.location.index := by
    have hprefix := List.takeWhile_prefix (· == Token.mark .colon) (l := s.program.rest)
    have hprefix' : y.before.drop s.program.location.index <+: s.program.rest := by
      rw [hold]
      exact List.prefix_append _ _
    have hlength : (s.program.rest.takeWhile (· == .mark .colon)).length =
        (y.before.drop s.program.location.index).length := by
      rw [List.length_drop]
      omega
    exact (List.prefix_of_prefix_length_le hprefix hprefix' hlength.le).eq_of_length hlength
  have hcolons : ∀ u ∈ y.before.drop s.program.location.index, (u == .mark .colon) = true := by
    rw [← hbefore]
    exact fun u hu => List.mem_takeWhile_imp (p := (· == Token.mark .colon)) hu
  have hbefore' : t.program.rest.takeWhile (· == .mark .colon) =
      y.before.drop s.program.location.index := by
    rw [h.program, hnew, List.takeWhile_append_of_pos hcolons, List.takeWhile_cons_of_neg (by simp),
      List.append_nil]
  have hskip : ((s.program.reworded y).skip (y.before.drop s.program.location.index).length) =
      (s.program.skip (y.before.drop s.program.location.index).length).reworded y := by
    refine Program.skip_reworded fun _ => ?_
    have hlength := congrArg List.length hbefore
    have hstop : ¬ y.stop ≤ y.before.length := by
      rw [Rewording.stop]
      omega
    rw [← hlength, hsum, Rewording.index, if_neg hstop, Rewording.index, if_neg (by omega), hsum]
  rw [Machine.atStatement, Machine.atStatement, hbefore, hbefore', h.program, hskip]
  obtain ⟨hhas, hreads, log, rfl⟩ := h
  exact ⟨hhas, hreads, log, rfl⟩

/-- The statement that is worded in two ways comes up on both machines. -/
theorem upcoming? (h : Parallel y s t) {o : Options} (hs : s.Active o) (hquiet : s.tracing = false)
    (hnext : s.upcoming? = some s') (hline : s'.program.location.line = y.line)
    (hindex : s'.program.location.index = y.before.length) :
    ∃ t', t.upcoming? = some t' ∧ Parallel y s' t' := by
  obtain ⟨s₁, hstart, rfl⟩ := Option.map_eq_some_iff.mp hnext
  rcases h.toStatement? hs.program.synced with ⟨hnone, -⟩ | ⟨s₂, t₁, hleft, hright, h₁⟩
  · cases hnone.symm.trans hstart
  · obtain rfl : s₂ = s₁ := Option.some.inj (hleft.symm.trans hstart)
    have hquiet₁ : s₂.tracing = false := by
      obtain ⟨p, rfl⟩ := exists_of_toStatement? hstart
      exact hquiet
    have hannounce : Parallel y s₂.announce t₁.announce := by
      rw [announce_eq hquiet₁, announce_eq (h₁.rewords.tracing.trans hquiet₁)]
      exact h₁.record _ _
    have hactive := (hs.toStatement? hstart).announce
    refine ⟨t₁.announce.atStatement, ?_, hannounce.atStatement hactive.program.synced hline hindex⟩
    rw [Machine.upcoming?, hright, Option.map_some]

/-- What comes after the statement. -/
theorem together_endStatement (h : Parallel y s t) (hs : s.program.Synced)
    (hline : s.program.location.line = y.line) (hstop : y.stop ≤ s.program.location.index) :
    Together (fun _ => Parallel y) (Rewords y) (endStatement s) (endStatement t) := by
  have hcurrent := (h.has.current hs).resolve_right (absurd hline)
  have hrest : t.program.rest = s.program.rest :=
    h.program ▸ Program.rest_reworded hline hcurrent hstop
  have hjumped : t.program.jumped = s.program.jumped := congrArg (·.jumped) h.program
  have hend : t.program.atEnd = s.program.atEnd := h.program ▸ Program.atEnd_reworded h.has hs
  have hkind : t.program.peekKind? = s.program.peekKind? := by
    rw [Program.peekKind?, Program.peekKind?, Program.peek?_eq_head?, Program.peek?_eq_head?, hrest]
  have hpast : Parallel y s.past t.past := by
    have hskip : (s.program.reworded y).skip 1 = (s.program.skip 1).reworded y := by
      refine Program.skip_reworded fun _ => ?_
      have hle : y.old.length ≤ y.stop := Nat.le_add_left _ _
      rw [Rewording.index, if_pos (by omega), Rewording.index, if_pos hstop]
      omega
    rw [past, past, h.program, hskip]
    obtain ⟨hhas, hreads, log, rfl⟩ := h
    exact ⟨hhas, hreads, log, rfl⟩
  have hdiscarded : Parallel y { s with program := s.program.discardRest }
      { t with program := t.program.discardRest } := by
    rw [h.program, Program.discardRest_reworded h.has hs]
    obtain ⟨hhas, hreads, log, rfl⟩ := h
    exact ⟨hhas, hreads, log, rfl⟩
  -- both sides see the same tokens, so they move in the same way
  rw [endStatement, get_bind_apply, get_bind_apply, hjumped, hend]
  split
  · exact ⟨rfl, h⟩
  · rw [bind_apply, bind_apply, accept_apply, accept_apply, hkind]
    by_cases hcolon : s.program.peekKind? = some (.mark .colon)
    · rw [if_pos hcolon, if_pos hcolon]
      exact ⟨rfl, hpast⟩
    · rw [if_neg hcolon, if_neg hcolon]
      by_cases helse : s.program.peekKind? = some (.keyword .ELSE)
      · simp only [if_pos helse]
        exact ⟨rfl, hdiscarded⟩
      · simp only [if_neg helse]
        exact ⟨rfl, h.rewords⟩

end Parallel

/-! ### What is left of a step -/

theorem Rewords.enter (h : Rewords y s t) (state : State) :
    Rewords y (s.enter state) (t.enter state) := by
  obtain ⟨hhas, hreads, i, log, rfl⟩ := h
  rw [Machine.enter, Machine.enter]
  split <;> split <;> exact ⟨hhas, hreads, i, _, rfl⟩

/-- A fault has the same effect wherever on the line it is found. -/
theorem Rewords.abort (h : Rewords y s t) (c : Cause) (line : Line) :
    Rewords y (s.abort c line).2 (t.abort c line).2 := by
  have hdropped : Rewords y
      { s with
        program := s.program.resetStacks.clearBreakpoint, reply := none, branchInput := none }
      { t with
        program := t.program.resetStacks.clearBreakpoint, reply := none, branchInput := none } := by
    obtain ⟨hhas, hreads, i, log, rfl⟩ := h
    exact ⟨hhas, hreads, i, log, rfl⟩
  obtain ⟨hhas, hreads, i, log, heq⟩ := hdropped.enter .idle
  rw [Machine.abort, Machine.abort]
  dsimp only
  rw [heq]
  exact ⟨hhas, hreads, i, _, rfl⟩

/-- Two steps report the same, and they leave machines at the same place. Only after a fault they
may be at different places of the line. -/
structure EndsAlike (y : Rewording) (r r' : Option Fault × Machine) : Prop where
  fault : r'.1 = r.1
  rewords : Rewords y r.2 r'.2
  parallel : r.1 = none → Parallel y r.2 r'.2

theorem Parallel.endStep (h : Parallel y s t) (hs : s.program.Synced) (line : Line) :
    EndsAlike y (endStep line (.ok () s)) (Machine.endStep line (.ok () t)) := by
  rw [Machine.endStep, Machine.endStep]
  rcases h.toStatement? hs with ⟨hleft, hright⟩ | ⟨s', t', hleft, hright, h'⟩
  · rw [hleft, hright]
    exact ⟨rfl, (h.enter .idle).rewords, fun _ => h.enter .idle⟩
  · rw [hleft, hright]
    exact ⟨rfl, h'.rewords, fun _ => h'⟩

theorem Rewords.endStep (h : Rewords y s t) (c : Cause) (line : Line) :
    EndsAlike y (endStep line (.error (.fault c) s)) (Machine.endStep line (.error (.fault c) t)) :=
  ⟨rfl, h.abort c line, fun hnone => absurd hnone (Option.some_ne_none _)⟩

end Machine

end LineBasic
