import LineBasic.Proofs.Machine.Assigned
import LineBasic.Proofs.Machine.LoopHead
import LineBasic.Proofs.Machine.OneStatement
import LineBasic.Proofs.Machine.Plain
import LineBasic.Proofs.Program.Lines
import LineBasic.Proofs.Program.OnStoredLines
import Mathlib.Tactic.Ring

/-!
# How often a loop goes round

A `FOR` sets its variable and remembers the place of its body, and each `NEXT` adds the step to the
variable. The loop goes round again as long as the variable has not passed the limit, and the body
is executed at least once. So where start, limit and step are integers, the number of rounds is
known beforehand, and before each of them the variable has a known value.

This is shown for loops on one line whose body does not transfer control and leaves the variable
alone. What holds at the start of a round is carried through the body statement by statement, and
through the `NEXT` to the start of the next round.

## Main definitions

* `rounds` — the number of rounds of a loop
* `Machine.Stands` — where on its line the machine is, and which loops are pending
* `loopFrom` — the tokens from some place of the body on
* `Machine.FirstRound` — the start of a loop none of whose statements fails

## Main results

* `lt_rounds_iff` — whether there is another round
* `Machine.Stands.step_plain`, `Machine.Stands.step_next_again`, `Machine.Stands.step_next_over` —
  one statement of the body, and the `NEXT` behind it
* `Machine.FirstRound.stands_statement`, `Machine.FirstRound.run` — the rounds, and all of them
* `Machine.loop_rounds` — the run of a loop
-/

namespace LineBasic

/-- The number of rounds of a loop from `a` to `b` in steps of `s`. -/
def rounds (a b s : Int) : Nat :=
  (max 1 (Int.fdiv (b - a) s + 1)).toNat

theorem le_fdiv_iff_of_pos {x s k : Int} (hs : 0 < s) : k ≤ Int.fdiv x s ↔ k * s ≤ x := by
  rw [Int.fdiv_eq_ediv_of_nonneg x hs.le, Int.le_ediv_iff_mul_le hs]

theorem le_fdiv_iff_of_neg {x s k : Int} (hs : s < 0) : k ≤ Int.fdiv x s ↔ x ≤ k * s := by
  rw [← Int.neg_fdiv_neg, le_fdiv_iff_of_pos (by omega), Int.mul_neg, Int.neg_le_neg_iff]

/-- After the first round, the loop goes round as long as the variable has not passed the limit. -/
theorem lt_rounds_iff {a b s : Int} (hs : s ≠ 0) {k : Nat} (hk : 0 < k) :
    k < rounds a b s ↔ 0 ≤ s ∧ a + k * s ≤ b ∨ s < 0 ∧ b ≤ a + k * s := by
  have hcount : k < rounds a b s ↔ (k : Int) ≤ Int.fdiv (b - a) s := by
    rw [rounds]
    omega
  rcases Int.lt_or_gt_of_ne hs with hneg | hpos
  · rw [hcount, le_fdiv_iff_of_neg hneg]
    omega
  · rw [hcount, le_fdiv_iff_of_pos hpos]
    omega

theorem rounds_pos (a b s : Int) : 0 < rounds a b s := by
  rw [rounds]
  omega

/-- The tokens of a loop from some statement of its body on, up to the end of the line. -/
def loopFrom (name : Name) (after : List Token) (body : List Plain) : List Token :=
  body.flatMap (fun p => p.tokens ++ [.mark .colon]) ++ .keyword .NEXT :: .symbol name :: after

theorem loopFrom_cons (name : Name) (after : List Token) (p : Plain) (body : List Plain) :
    loopFrom name after (p :: body) = p.tokens ++ .mark .colon :: loopFrom name after body := by
  simp [loopFrom]

/-- A statement does not start with a colon. -/
theorem Plain.exists_cons (p : Plain) : ∃ t ts, p.tokens = t :: ts ∧ t ≠ .mark .colon := by
  match p with
  | .assign true w value => exact ⟨_, _, rfl, nofun⟩
  | .assign false (.scalar name) value => exact ⟨_, _, rfl, nofun⟩
  | .assign false (.element name args) value => exact ⟨_, _, rfl, nofun⟩
  | .print true items => exact ⟨_, _, rfl, nofun⟩
  | .print false items => exact ⟨_, _, rfl, nofun⟩
  | .read w ws => exact ⟨_, _, rfl, nofun⟩
  | .restore => exact ⟨_, _, rfl, nofun⟩

theorem exists_cons_loopFrom (name : Name) (after : List Token) (body : List Plain) :
    ∃ t ts, loopFrom name after body = t :: ts ∧ t ≠ .mark .colon := by
  cases body with
  | nil => exact ⟨_, _, rfl, nofun⟩
  | cons p body =>
    obtain ⟨t, ts, htokens, ht⟩ := p.exists_cons
    exact ⟨t, _, by rw [loopFrom_cons, htokens]; rfl, ht⟩

/-- What a loop over integers remembers: it goes on to `b` in steps of `s`, and behind any colons
its body is at the tokens `body` of the line. -/
structure Loop.Remembers (l : Loop) (b s : Int) (line : Line)
    (current body : List Token) : Prop where
  limit : Number.Is l.limit b
  step : Number.Is l.step s
  line : l.resume.line = line
  index : l.resume.index ≤ current.length
  body : (current.drop l.resume.index).dropWhile (· == .mark .colon) = body

namespace Machine

variable {o : Options} {m m' : Machine} {name : Name}

/-- The variable has the value `i`. -/
def Holds (m : Machine) (name : Name) (i : Int) : Prop :=
  ∃ x, m.scalars[name]? = some (.num x) ∧ Number.Is x i

/-! ### The end of a round -/

/-- The loops outside the one over a variable, if there is one. -/
def outside (name : Name) (loops : List Loop) : List Loop :=
  match Program.splitAtLoop? name loops with
  | some (_, outer) => outer
  | none => loops

theorem startLoop_eq (limit step : Float) (p : Program) :
    Program.startLoop name limit step p =
      if p.maxLoops ≤ (outside name p.loops).length then
        .error .stackOverflow { p with loops := outside name p.loops }
      else .ok () { p with loops := ⟨p.location, name, limit, step⟩ :: outside name p.loops } :=
  rfl

section EndLoop

variable {p : Program} {l : Loop} {outer : List Loop} {x : Float}

/-- The innermost loop goes round under its name. -/
theorem endLoop_eq (hloops : p.loops = l :: outer) (hname : l.name = name) :
    Program.endLoop name x p =
      if l.continues (x + l.step) then
        match p.moveTo? l.resume with
        | some p' => .ok (x + l.step) { p' with jumped := true }
        | none => .error .undefinedStatement p
      else .ok (x + l.step) { p with loops := outer } := by
  have hfound : Program.loopFor? name p.loops = some (l, outer) := by
    rw [hloops, ← hname]
    exact Program.loopFor?_self l outer
  rw [Program.endLoop_some x hfound, ← hloops]
  rfl

/-- A loop that goes round again is back at its body. -/
theorem endLoop_again (hloops : p.loops = l :: outer) (hname : l.name = name)
    (hagain : l.continues (x + l.step) = true) {tokens : List Token}
    (htokens : p.tokensOf? l.resume.line = some tokens)
    (hindex : l.resume.index ≤ tokens.length) :
    Program.endLoop name x p =
      .ok (x + l.step) { p with location := l.resume, current := tokens, jumped := true } := by
  rw [endLoop_eq hloops hname, if_pos hagain, Program.moveTo?_eq htokens hindex]

/-- A loop that is over is forgotten. -/
theorem endLoop_over (hloops : p.loops = l :: outer) (hname : l.name = name)
    (hover : l.continues (x + l.step) = false) :
    Program.endLoop name x p = .ok (x + l.step) { p with loops := outer } := by
  rw [endLoop_eq hloops hname, hover, if_neg Bool.false_ne_true]

end EndLoop

/-- What a `FOR` does once its terms are read: the variable is set, and the loop begins. -/
theorem statement_for {ts : List Token} {t : Terms} {m₁ : Machine}
    (hrest : m.program.rest = .keyword .FOR :: ts) (hterms : loopTerms m.past = .ok t m₁)
    (k : Nat) :
    statement (k + 1) m =
      ofEval (onProgram (Program.startLoop t.name t.limit t.step))
        { m₁ with scalars := m₁.scalars.insert t.name (.num t.start) } := by
  rw [statement, get_bind_apply, Program.peek?_of_rest hrest]
  change forStatement m.past = _
  rw [forStatement_eq, bind_apply, hterms]
  rfl

/-- What a `NEXT` of one variable does: the loop ends its round, and the variable takes its next
value. -/
theorem statement_next {name : Name} {after : List Token} {x y : Float} {q : Program}
    (hrest : m.program.rest = .keyword .NEXT :: .symbol name :: after)
    (hlookup : m.lookup name = .num x)
    (hround : Program.endLoop name x (m.program.skip 2) = .ok y q)
    (hlast : q.jumped = true ∨ q.rest.head? ≠ some (.mark .comma)) (k : Nat) :
    ∃ m', statement (k + 1) m = .ok () m' ∧ m'.program = q ∧
      m'.scalars[name]? = some (.num y) ∧ m'.state = m.state := by
  refine ⟨{ m with program := q, scalars := m.scalars.insert name (.num y) }, ?_, rfl,
    Std.ExtTreeMap.getElem?_insert_self, rfl⟩
  have hname := rest_past hrest
  have hitem : nextItem m.past =
      .ok (!q.jumped) { m with program := q, scalars := m.scalars.insert name (.num y) } := by
    change (ofEval (onProgram Program.nextName) >>= _) m.past = _
    rw [bind_apply, ofEval, nextName_of_rest hname]
    change (nextLoop name >>= _) m.past.past = _
    have hloop : nextLoop name m.past.past =
        .ok () { m with program := q, scalars := m.scalars.insert name (.num y) } := by
      rw [nextLoop, get_bind_apply, show m.past.past.lookup name = .num x from hlookup]
      change (ofEval (onProgram (Program.endLoop name x)) >>= _) m.past.past = _
      rw [bind_apply, ofEval, onProgram,
        show m.past.past.program = m.program.skip 2 from Program.skip_skip _ _ _, hround]
      rfl
    rw [bind_apply, hloop]
    rfl
  have hend : m.past.program.atStatementEnd = false := by
    rw [Program.atStatementEnd, Program.peek?_of_rest hname]
    rfl
  have hstatement : statement (k + 1) m = nextStatement m.past := by
    rw [statement, get_bind_apply, Program.peek?_of_rest hrest]
    rfl
  rw [hstatement, nextStatement, get_bind_apply]
  simp only [hend, Bool.false_eq_true, if_false]
  rw [items, get_bind_apply, hname, List.length_cons, eachItem, bind_apply, hitem]
  cases hjumped : q.jumped with
  | true => rfl
  | false =>
    have hcomma : q.peekKind? ≠ some (.mark .comma) := by
      intro hkind
      rw [← Program.peek?_eq_head?] at hlast
      rcases hlast with hjump | hhead
      · cases hjumped.symm.trans hjump
      · exact hhead (Program.peek?_of_peekKind?_mark hkind)
    change (accept (.mark .comma) >>= _) _ = _
    rw [bind_apply, accept_apply, if_neg hcomma]
    rfl

/-- Whether a loop over integers goes round again. -/
theorem continues_iff {l : Loop} {x : Float} {b s i : Int} (hlimit : Number.Is l.limit b)
    (hstep : Number.Is l.step s) (hx : Number.Is x i) :
    l.continues x = true ↔ 0 ≤ s ∧ i ≤ b ∨ s < 0 ∧ b ≤ i := by
  simp [Loop.continues, Number.le_iff_of_is Number.is_zero hstep, Number.le_iff_of_is hx hlimit,
    Number.lt_iff_of_is hstep Number.is_zero, Number.le_iff_of_is hlimit hx]

/-- Control that was transferred stays where it went. -/
theorem endStatement_of_jumped (h : m.program.jumped = true) : endStatement m = .ok () m := by
  rw [endStatement, get_bind_apply]
  simp only [h, Bool.true_or, if_true]
  rfl

/-- At its end, a statement is followed by no more than what comes behind it. -/
theorem endStatement_of_ends (hjumped : m.program.jumped = false)
    (hend : ∀ t ∈ m.program.rest.head?, t.endsStatement = true) :
    ∃ i, endStatement m = .ok () { m with program := m.program.atIndex i } ∧
      (m.program.atIndex i).rest <:+ m.program.rest := by
  cases hrest : m.program.rest with
  | nil =>
    refine ⟨m.program.location.index, endStatement_of_nil hrest, ?_⟩
    rw [show (m.program.atIndex _).rest = [] from hrest]
  | cons t ts =>
    rw [hrest] at hend
    have ht := hend t rfl
    unfold Token.endsStatement at ht
    split at ht
    · refine ⟨m.program.location.index + 1, endStatement_of_colon hrest hjumped, ?_⟩
      rw [show (m.program.atIndex _).rest = ts from rest_past hrest]
      exact List.suffix_cons _ _
    · have helse : m.program.peekKind? = some (.keyword .ELSE) := by
        rw [Program.peekKind?, Program.peek?_of_rest hrest]
        rfl
      refine ⟨m.program.current.length, ?_, ?_⟩
      · rw [endStatement, get_bind_apply]
        simp only [hjumped, Program.atEnd_of_cons hrest, Bool.or_false, Bool.false_eq_true,
          if_false]
        rw [bind_apply, accept_apply, if_neg (by rw [helse]; simp)]
        simp only [helse, Bool.false_eq_true, if_false, if_true]
        rfl
      · rw [show (m.program.atIndex _).rest = [] from List.drop_length]
        exact List.nil_suffix
    · cases ht

/-! ### Where the machine is -/

/-- The machine runs, and behind any colons the tokens `ts` are left of its line. -/
structure Stands (m : Machine) (line : Line) (current : List Token) (loops : List Loop)
    (ts : List Token) : Prop where
  running : m.state = .running
  line : m.program.location.line = line
  current : m.program.current = current
  loops : m.program.loops = loops
  rest : m.program.rest.dropWhile (· == .mark .colon) = ts

/-- The machine has gone behind a statement: it has stopped, is on another line, or has some of the
tokens left that came behind the statement. -/
def Left (m : Machine) (line : Line) (after : List Token) : Prop :=
  m.state = .idle ∨ m.program.location.line ≠ line ∨ m.program.rest <:+ after

theorem rest_atStatement (m : Machine) :
    m.atStatement.program.rest = m.program.rest.dropWhile (· == .mark .colon) := by
  have hdrop : (m.program.rest.takeWhile (· == .mark .colon) ++
      m.program.rest.dropWhile (· == .mark .colon)).drop
        (m.program.rest.takeWhile (· == .mark .colon)).length =
      m.program.rest.dropWhile (· == .mark .colon) := List.drop_left
  rw [List.takeWhile_append_dropWhile] at hdrop
  exact (Program.rest_skip m.program _).trans hdrop

theorem enter_scalars (m : Machine) (s : State) : (m.enter s).scalars = m.scalars := by
  rw [enter]
  split <;> rfl

theorem announce_scalars (m : Machine) : m.announce.scalars = m.scalars := by
  rw [announce]
  split <;> rfl

/-- Behind a statement the machine goes on, if there is anything to go on with. -/
theorem endStep_left {line : Line} {after : List Token} (hline : m.program.location.line = line)
    (hrest : m.program.rest <:+ after) :
    (endStep line (.ok () m)).1 = none ∧ (endStep line (.ok () m)).2.Left line after ∧
      (endStep line (.ok () m)).2.program.loops = m.program.loops ∧
      (endStep line (.ok () m)).2.scalars = m.scalars := by
  rw [endStep]
  cases hnext : m.toStatement? with
  | none =>
    exact ⟨rfl, .inl rfl, congrArg (·.loops) (enter_program m .idle), enter_scalars m .idle⟩
  | some m' =>
    rw [Machine.toStatement?] at hnext
    split at hnext
    · obtain ⟨p, hadvance, rfl⟩ := Option.map_eq_some_iff.mp hnext
      cases hnumber : m.program.location.line with
      | immediate =>
        rw [Program.advance?, hnumber] at hadvance
        cases hadvance
      | numbered n =>
        rw [Program.advance?_eq hnumber] at hadvance
        obtain ⟨e, hfind, rfl⟩ := Option.map_eq_some_iff.mp hadvance
        have hlt : n < e.1 := by simpa using List.find?_some hfind
        refine ⟨rfl, .inr (.inl fun heq => ?_), rfl, rfl⟩
        rw [← hline, hnumber] at heq
        cases heq
        exact Nat.lt_irrefl _ hlt
    · cases hnext
      exact ⟨rfl, .inr (.inr hrest), rfl, rfl⟩

namespace Stands

variable {line : Line} {current : List Token} {loops : List Loop} {t : Token} {ts : List Token}

theorem toStatement? (h : m.Stands line current loops (t :: ts)) : m.toStatement? = some m := by
  cases hrest : m.program.rest with
  | nil =>
    have hnil := h.rest
    rw [hrest] at hnil
    cases hnil
  | cons u us => exact toStatement?_eq (Program.peek?_of_rest hrest)

/-- A step executes the statement behind the colons and what follows it. -/
theorem step_eq (h : m.Stands line current loops (t :: ts)) :
    m.step = endStep line
      ((statement (ts.length + 1) >>= fun _ => endStatement) m.announce.atStatement) := by
  have hrest : m.announce.atStatement.program.rest = t :: ts := by
    rw [rest_atStatement, announce_program, h.rest]
  rw [Machine.step_eq h.running h.toStatement?, h.line, execute_apply,
    if_neg (by simp [Program.atEnd_of_cons hrest]), hrest, List.length_cons]

theorem rest_statement (h : m.Stands line current loops (t :: ts)) :
    m.announce.atStatement.program.rest = t :: ts := by
  rw [rest_atStatement, announce_program, h.rest]

/-- A step whose statement ends normally. -/
theorem step_of_end {m₁ m₂ : Machine} (h : m.Stands line current loops (t :: ts))
    (hstatement : statement (ts.length + 1) m.announce.atStatement = .ok () m₁)
    (hend : endStatement m₁ = .ok () m₂) : m.step = endStep line (.ok () m₂) := by
  rw [h.step_eq, bind_apply, hstatement]
  exact congrArg (endStep line) hend

/-- A `FOR` whose head is written with integers. -/
theorem opens_integers {more : List Token} {a b s : Int} (hname : name.isString = false)
    (h : m.Stands line current loops
      (.keyword .FOR :: (integerHead name a b s ++ .mark .colon :: more)))
    (ha : a.natAbs ≤ 2 ^ 53) (hb : b.natAbs ≤ 2 ^ 53) (hs : s.natAbs ≤ 2 ^ 53) :
    m.Opens name a b s := by
  obtain ⟨t, m', hterms, hrest⟩ := loopTerms_integers hname (rest_past h.rest_statement) ha hb hs
  exact ⟨m.announce.atStatement, t, m', by rw [upcoming?, h.toStatement?]; rfl, hterms, hrest⟩

/-- A `PRINT` of literals and variables does not fail. -/
theorem step_print {items more : List Token} (hitems : ∀ t ∈ items, t.Printed)
    (h : m.Stands line current loops (.keyword .PRINT :: (items ++ .mark .colon :: more))) :
    m.step.1 = none := by
  obtain ⟨text, hstatement⟩ := statement_print h.rest_statement (.inl rfl) hitems
    (by rintro t ⟨⟩; rfl) (items ++ .mark .colon :: more).length
  have hcolon : (m.announce.atStatement.program.skip (items.length + 1)).rest =
      .mark .colon :: more := by
    rw [Program.rest_skip, h.rest_statement, List.drop_succ_cons, List.drop_left]
  rw [h.step_of_end hstatement (endStatement_of_colon hcolon rfl), endStep]
  split <;> rfl

/-- A statement of the body that succeeds goes on to the next one, with the same loops and the same
value of the variable. -/
theorem step_plain {p : Plain} {more : List Token}
    (h : m.Stands line current loops (p.tokens ++ .mark .colon :: more)) (hm : m.Active o)
    (hp : p.Proper) (havoids : p.Avoids name) (hmore : ∃ u us, more = u :: us ∧ u ≠ .mark .colon)
    (hok : m.step.1 = none) :
    m.step.2.Stands line current loops more ∧ m.step.2.scalars[name]? = m.scalars[name]? := by
  obtain ⟨t, ts, htokens, -⟩ := p.exists_cons
  have hcons : p.tokens ++ .mark .colon :: more = t :: (ts ++ .mark .colon :: more) := by
    rw [htokens]
    rfl
  rw [hcons] at h
  have hpassed := concludes_plain hp havoids (active_atStatement hm.announce) rfl
    (h.rest_statement.trans hcons.symm) (ts ++ .mark .colon :: more).length
  rw [h.step_eq] at hok ⊢
  cases hend : (statement ((ts ++ .mark .colon :: more).length + 1) >>= fun _ => endStatement)
      m.announce.atStatement with
  | ok _ m₁ =>
    rw [hend] at hpassed
    obtain ⟨hpassed, hrest⟩ := hpassed
    obtain ⟨u, us, rfl, hu⟩ := hmore
    rw [endStep, toStatement?_eq (Program.peek?_of_rest hrest)]
    refine ⟨⟨?_, ?_, ?_, ?_, ?_⟩, hpassed.value.trans (by rw [atStatement, announce_scalars])⟩
    · exact hpassed.state.trans ((announce_state m).trans h.running)
    · rw [hpassed.line, ← h.line]
      exact congrArg (·.location.line) (announce_program m)
    · rw [hpassed.current, ← h.current]
      exact congrArg (·.current) (announce_program m)
    · rw [hpassed.loops, ← h.loops]
      exact congrArg (·.loops) (announce_program m)
    · rw [hrest, List.dropWhile_cons_of_neg (by simpa using hu)]
  | error e m₁ =>
    rw [hend] at hpassed hok
    cases e with
    | fault c => cases hok
    | signal s => exact hpassed.elim

/-- Between statements a variable that has a value is seen. -/
theorem lookup_of_scalars {x : Float} (hm : m.Active o) (hx : m.scalars[name]? = some (.num x)) :
    m.announce.atStatement.lookup name = .num x := by
  have hcalls := (active_atStatement hm.announce).program.gosubs
  rw [lookup_eq_global hcalls, global, atStatement, announce_scalars, hx]
  rfl

/-- At the `NEXT`, the loop over the variable goes back to its body, and the variable takes its next
value. -/
theorem step_next_again {l : Loop} {outer : List Loop} {after more : List Token} {b s i : Int}
    (hname : l.name = name)
    (h : m.Stands line current (l :: outer) (.keyword .NEXT :: .symbol name :: after))
    (hm : m.Active o) (hl : l.Remembers b s line current more)
    (hmore : ∃ u us, more = u :: us) (hi : m.Holds name i) (hmax : (i + s).natAbs ≤ 2 ^ 53)
    (hagain : 0 ≤ s ∧ i + s ≤ b ∨ s < 0 ∧ b ≤ i + s) :
    m.step.1 = none ∧ m.step.2.Stands line current (l :: outer) more ∧
      m.step.2.Holds name (i + s) := by
  obtain ⟨x, hx, hvalue⟩ := hi
  have hsum := Number.is_add hvalue hl.step hmax
  have htokens : m.announce.program.tokensOf? l.resume.line = some current := by
    rw [announce_program, hl.line, ← h.line, ← h.current]
    exact hm.program.synced
  have hloops : m.announce.program.loops = l :: outer := by rw [announce_program, h.loops]
  -- the place of the body is on the line, so the loop finds its tokens
  have hround := endLoop_again (x := x) (p := m.announce.atStatement.program.skip 2) hloops hname
    ((continues_iff hl.limit hl.step hsum).mpr hagain) htokens hl.index
  obtain ⟨m₁, hstatement, hprogram, hscalars, hstate⟩ :=
    statement_next h.rest_statement (lookup_of_scalars hm hx) hround (.inl rfl) _
  have hend : endStatement m₁ = .ok () m₁ := endStatement_of_jumped (by rw [hprogram])
  have hrest : m₁.program.rest = current.drop l.resume.index := by
    rw [hprogram]
    rfl
  have hstands : m₁.Stands line current (l :: outer) more := by
    refine ⟨hstate.trans ((announce_state m).trans h.running), ?_, ?_, ?_, ?_⟩
    · rw [hprogram, ← hl.line]
    · rw [hprogram]
    · rw [hprogram]
      exact hloops
    · rw [hrest, hl.body]
  obtain ⟨u, us, rfl⟩ := hmore
  rw [h.step_of_end hstatement hend, endStep, hstands.toStatement?]
  exact ⟨rfl, hstands, x + l.step, hscalars, hsum⟩

/-- At the `NEXT`, the loop over the variable is forgotten when it is over, and the variable takes
its next value. -/
theorem step_next_over {l : Loop} {outer : List Loop} {after body : List Token} {b s i : Int}
    (hname : l.name = name)
    (h : m.Stands line current (l :: outer) (.keyword .NEXT :: .symbol name :: after))
    (hafter : ∀ t ∈ after.head?, t.endsStatement = true) (hm : m.Active o)
    (hl : l.Remembers b s line current body) (hi : m.Holds name i)
    (hmax : (i + s).natAbs ≤ 2 ^ 53) (hover : ¬(0 ≤ s ∧ i + s ≤ b ∨ s < 0 ∧ b ≤ i + s)) :
    m.step.1 = none ∧ m.step.2.Left line after ∧ m.step.2.program.loops = outer ∧
      m.step.2.Holds name (i + s) := by
  obtain ⟨x, hx, hvalue⟩ := hi
  have hsum := Number.is_add hvalue hl.step hmax
  have hloops : m.announce.program.loops = l :: outer := by rw [announce_program, h.loops]
  have hcontinues : l.continues (x + l.step) = false := by
    rw [← Bool.not_eq_true, continues_iff hl.limit hl.step hsum]
    exact hover
  have hround := endLoop_over (x := x) (p := m.announce.atStatement.program.skip 2) hloops hname
    hcontinues
  have hrest : (m.announce.atStatement.program.skip 2).rest = after := by
    rw [Program.rest_skip, h.rest_statement]
    rfl
  have hcomma : (m.announce.atStatement.program.skip 2).rest.head? ≠ some (.mark .comma) := by
    rw [hrest]
    intro hhead
    cases hafter _ hhead
  obtain ⟨m₁, hstatement, hprogram, hscalars, hstate⟩ :=
    statement_next h.rest_statement (lookup_of_scalars hm hx) hround (.inr hcomma) _
  have hrest₁ : m₁.program.rest = after := by
    rw [hprogram]
    exact hrest
  obtain ⟨k, hend, hsuffix⟩ := endStatement_of_ends (m := m₁) (by rw [hprogram]; rfl)
    (by rw [hrest₁]; exact hafter)
  rw [hrest₁] at hsuffix
  have hline : m₁.program.location.line = line := by
    rw [hprogram, ← h.line]
    exact congrArg (·.location.line) (announce_program m)
  obtain ⟨hnone, hleft, hloops₂, hscalars₂⟩ :=
    endStep_left (m := { m₁ with program := m₁.program.atIndex k }) hline hsuffix
  rw [h.step_of_end hstatement hend]
  refine ⟨hnone, hleft, hloops₂.trans ?_, x + l.step, ?_, hsum⟩
  · rw [hprogram]
    rfl
  · rw [hscalars₂]
    exact hscalars

/-- Once the terms of a `FOR` are read, the machine is at the end of its head, and nothing of the
program has changed. -/
theorem head_of_terms {header more : List Token} {t : Terms} {m₁ : Machine}
    (h : m.Stands line current loops (.keyword .FOR :: (header ++ .mark .colon :: more)))
    (hheader : ∀ t ∈ header, t.endsStatement = false) (hm : m.Active o)
    (hterms : loopTerms m.announce.atStatement.past = .ok t m₁) :
    m₁.program.rest = .mark .colon :: more ∧ m₁.state = .running ∧
      m₁.program.location.index ≤ current.length ∧
      m₁.program = m.program.clearJumped.atIndex m₁.program.location.index := by
  have hrest := h.rest_statement
  have hpast := (active_atStatement hm.announce).walked (.skip (Program.peek?_of_rest hrest))
  have htrod := treads_loopTerms o m.announce.atStatement.past hpast
  rw [hterms] at htrod
  have hprogram : m₁.program = m.program.clearJumped.atIndex m₁.program.location.index := by
    rw [htrod.program, ← announce_program m]
    rfl
  have hcurrent : m.announce.atStatement.past.program.current = current := by
    rw [← h.current, ← announce_program m]
    rfl
  refine ⟨?_, ?_, ?_, hprogram⟩
  · exact (Within.of_trod htrod).rest_of_ends (rest_past hrest) hheader (ends_of_loopTerms hterms)
  · rw [(Within.of_trod htrod).state, ← h.running]
    exact announce_state m
  · rw [← hcurrent]
    exact htrod.within

/-- A `FOR` sets its variable and remembers the place of its body. An earlier loop over the variable
is forgotten, with all loops inside it, and then there must be room for the new one. -/
theorem step_for {header more : List Token} {a b s : Int}
    (h : m.Stands line current loops (.keyword .FOR :: (header ++ .mark .colon :: more)))
    (hheader : ∀ t ∈ header, t.endsStatement = false) (hm : m.Active o)
    (hmore : ∃ u us, more = u :: us ∧ u ≠ .mark .colon) (hopens : m.Opens name a b s) :
    (m.step.1 = none ↔ (outside name loops).length < m.program.maxLoops) ∧
      (m.step.1 = none → ∃ l : Loop, l.name = name ∧ l.Remembers b s line current more ∧
        m.step.2.Stands line current (l :: outside name loops) more ∧ m.step.2.Holds name a) := by
  obtain ⟨n, t, m₁, hn, hterms, rfl, ha, hb, hs⟩ := hopens
  obtain rfl : m.announce.atStatement = n := by
    rw [upcoming?, h.toStatement?] at hn
    exact Option.some.inj hn
  obtain ⟨hcolon, hstate, hindex, hprogram⟩ := h.head_of_terms hheader hm hterms
  have hline : m₁.program.location.line = line := by rw [hprogram, ← h.line]; rfl
  have hcurrent : m₁.program.current = current := by rw [hprogram, ← h.current]; rfl
  have hloops : m₁.program.loops = loops := by rw [hprogram, ← h.loops]; rfl
  have hmaxLoops : m₁.program.maxLoops = m.program.maxLoops := by rw [hprogram]; rfl
  have hjumped : m₁.program.jumped = false := by rw [hprogram]; rfl
  have hbody : more.dropWhile (· == .mark .colon) = more := by
    obtain ⟨u, us, rfl, hu⟩ := hmore
    exact List.dropWhile_cons_of_neg (by simpa using hu)
  have hstatement := statement_for h.rest_statement hterms (header ++ .mark .colon :: more).length
  rw [ofEval, onProgram, startLoop_eq, hloops] at hstatement
  rw [← hmaxLoops]
  by_cases hroom : m₁.program.maxLoops ≤ (outside t.name loops).length
  · have hfault : m.step.1 ≠ none := by
      rw [if_pos hroom] at hstatement
      rw [h.step_eq, bind_apply, hstatement]
      exact Option.some_ne_none _
    exact ⟨iff_of_false hfault (Nat.not_lt.mpr hroom), fun hnone => absurd hnone hfault⟩
  · let l : Loop := ⟨m₁.program.location, t.name, t.limit, t.step⟩
    let m₂ : Machine :=
      { m₁ with
        program := { m₁.program with loops := l :: outside t.name loops }
        scalars := m₁.scalars.insert t.name (.num t.start) }
    rw [if_neg hroom] at hstatement
    replace hstatement : statement _ m.announce.atStatement = .ok () m₂ := hstatement
    have hcolon₂ : m₂.program.rest = .mark .colon :: more := hcolon
    have hend := endStatement_of_colon hcolon₂ hjumped
    have hstands : m₂.past.Stands line current (l :: outside t.name loops) more :=
      ⟨hstate, hline, hcurrent, rfl, by rw [rest_past hcolon₂, hbody]⟩
    have hremembers : l.Remembers b s line current more := by
      refine ⟨hb, hs, hline, hindex, ?_⟩
      rw [← hcurrent, show m₁.program.current.drop l.resume.index = _ from hcolon,
        List.dropWhile_cons_of_pos (by simp), hbody]
    obtain ⟨u, us, rfl, -⟩ := hmore
    rw [h.step_of_end hstatement hend, endStep, hstands.toStatement?]
    exact ⟨iff_of_true rfl (Nat.not_le.mp hroom), fun _ =>
      ⟨l, rfl, hremembers, hstands, t.start, Std.ExtTreeMap.getElem?_insert_self, ha⟩⟩

end Stands

/-! ### The run of a loop -/

theorem steps_add (m : Machine) (i j : Nat) : m.steps (i + j) = (m.steps i).steps j := by
  induction i generalizing m with
  | zero => rw [Nat.zero_add, steps]
  | succ i ih => rw [Nat.succ_add, steps, steps, ih]

theorem steps_succ (m : Machine) (i : Nat) : m.steps (i + 1) = (m.steps i).step.2 := by
  rw [steps_add, steps, steps]

section Run

variable {line : Line} {current after : List Token} {outer : List Loop} {l : Loop}
  {body : List Plain} {a b s i : Int}

/-- The body is executed statement by statement, and none of them changes the loops or the variable.
-/
theorem Stands.steps_body {loops : List Loop}
    (h : m.Stands line current loops (loopFrom name after body)) (hm : Reachable o m)
    (hbody : ∀ p ∈ body, p.Proper ∧ p.Avoids name) (hi : m.Holds name i)
    (hok : ∀ j < body.length, (m.steps j).step.1 = none) {j : Nat} (hj : j ≤ body.length) :
    (m.steps j).Stands line current loops (loopFrom name after (body.drop j)) ∧
      (m.steps j).Holds name i := by
  induction j with
  | zero => exact ⟨h, hi⟩
  | succ j ih =>
    obtain ⟨hstands, x, hx, hvalue⟩ := ih (Nat.le_of_succ_le hj)
    have hdrop : body.drop j = body[j] :: body.drop (j + 1) := List.drop_eq_getElem_cons hj
    rw [hdrop, loopFrom_cons] at hstands
    obtain ⟨hp, havoids⟩ := hbody _ (List.getElem_mem hj)
    have hactive := (hm.steps j).sound.active hstands.running
    obtain ⟨hstands', hkept⟩ := hstands.step_plain hactive hp havoids
      (exists_cons_loopFrom name after _) (hok j hj)
    rw [steps_succ]
    exact ⟨hstands', x, hkept.trans hx, hvalue⟩

/-- From the start of a round, the machine comes to the end of the round. -/
theorem Stands.steps_round {loops : List Loop}
    (h : m.Stands line current loops (loopFrom name after body)) (hm : Reachable o m)
    (hbody : ∀ p ∈ body, p.Proper ∧ p.Avoids name) (hi : m.Holds name i)
    (hok : ∀ j < body.length, (m.steps j).step.1 = none) :
    (m.steps body.length).Stands line current loops (.keyword .NEXT :: .symbol name :: after) ∧
      (m.steps body.length).Holds name i ∧ Active o (m.steps body.length) := by
  obtain ⟨hstands, hholds⟩ := h.steps_body hm hbody hi hok (Nat.le_refl _)
  rw [List.drop_length] at hstands
  exact ⟨hstands, hholds, (hm.steps _).sound.active hstands.running⟩

/-- At the end of the round number `k` the `NEXT` gives the variable its next value. Then the next
round starts, or the loop is left if this was the last one. -/
theorem Stands.step_next {k : Nat}
    (h : m.Stands line current (l :: outer) (.keyword .NEXT :: .symbol l.name :: after))
    (hafter : ∀ t ∈ after.head?, t.endsStatement = true) (hm : m.Active o)
    (hl : l.Remembers b s line current (loopFrom l.name after body)) (hs : s ≠ 0)
    (hi : m.Holds l.name (a + k * s)) (hmax : (a + (k + 1 : Nat) * s).natAbs ≤ 2 ^ 53) :
    m.step.1 = none ∧ m.step.2.Holds l.name (a + (k + 1 : Nat) * s) ∧
      (k + 1 < rounds a b s →
        m.step.2.Stands line current (l :: outer) (loopFrom l.name after body)) ∧
      (¬ k + 1 < rounds a b s → m.step.2.Left line after ∧ m.step.2.program.loops = outer) := by
  have hrounds := lt_rounds_iff (a := a) (b := b) hs (Nat.succ_pos k)
  have hsum : a + (k + 1 : Nat) * s = a + k * s + s := by
    push_cast
    ring
  rw [hsum] at hmax hrounds ⊢
  by_cases hagain : k + 1 < rounds a b s
  · obtain ⟨u, us, hcons, -⟩ := exists_cons_loopFrom l.name after body
    obtain ⟨hnone, hstands, hholds⟩ :=
      h.step_next_again rfl hm hl ⟨u, us, hcons⟩ hi hmax (hrounds.mp hagain)
    exact ⟨hnone, hholds, fun _ => hstands, fun hover => absurd hagain hover⟩
  · obtain ⟨hnone, hleft, hloops, hholds⟩ :=
      h.step_next_over rfl hafter hm hl hi hmax (mt hrounds.mpr hagain)
    exact ⟨hnone, hholds, fun hlt => absurd hlt hagain, fun _ => ⟨hleft, hloops⟩⟩

/-- Each of the steps of all rounds belongs to a statement of the body, or it is the `NEXT` of a
round. -/
theorem steps_of_rounds {P : Nat → Prop} {n length : Nat}
    (hbody : ∀ k < n, ∀ j < length, P (k * (length + 1) + j))
    (hnext : ∀ k < n, P (k * (length + 1) + length)) {i : Nat} (hi : i < n * (length + 1)) :
    P i := by
  have hdiv : i / (length + 1) < n := Nat.div_lt_of_lt_mul (by
    rw [Nat.mul_comm]
    exact hi)
  have hmod := Nat.mod_lt i (Nat.succ_pos length)
  rw [← Nat.div_add_mod' i (length + 1)]
  rcases Nat.lt_or_eq_of_le (Nat.le_of_lt_succ hmod) with hj | hj
  · exact hbody _ hdiv _ hj
  · rw [hj]
    exact hnext _ hdiv

/-- A machine at the start of the first round of a loop over integers, none of whose statements
fails in the rounds that there are. -/
structure FirstRound (o : Options) (line : Line) (current : List Token) (outer : List Loop)
    (after : List Token) (l : Loop) (body : List Plain) (a b s : Int) (m : Machine) : Prop where
  reachable : Reachable o m
  stands : m.Stands line current (l :: outer) (loopFrom l.name after body)
  /-- The `NEXT` is the last statement, or another one follows. -/
  ends : ∀ t ∈ after.head?, t.endsStatement = true
  remembers : l.Remembers b s line current (loopFrom l.name after body)
  plain : ∀ p ∈ body, p.Proper ∧ p.Avoids l.name
  step_ne : s ≠ 0
  holds : m.Holds l.name a
  /-- All values of the variable are exact. -/
  bound : ∀ k ≤ rounds a b s, (a + k * s).natAbs ≤ 2 ^ 53
  succeeds : ∀ k < rounds a b s, ∀ j < body.length,
    (m.steps (k * (body.length + 1) + j)).step.1 = none

namespace FirstRound

variable (h : FirstRound o line current outer after l body a b s m)

include h

/-- As long as there are rounds left, each round starts with the next value of the variable. -/
theorem stands_round {k : Nat} (hk : k < rounds a b s) :
    (m.steps (k * (body.length + 1))).Stands line current (l :: outer)
        (loopFrom l.name after body) ∧
      (m.steps (k * (body.length + 1))).Holds l.name (a + k * s) := by
  induction k with
  | zero =>
    rw [Nat.zero_mul, Nat.cast_zero, zero_mul, add_zero]
    exact ⟨h.stands, h.holds⟩
  | succ k ih =>
    have hlt := Nat.lt_of_succ_lt hk
    obtain ⟨hstands, hholds⟩ := ih hlt
    obtain ⟨hend, hholds', hactive⟩ :=
      hstands.steps_round (h.reachable.steps _) h.plain hholds fun j hj => by
        rw [← steps_add]
        exact h.succeeds k hlt j hj
    obtain ⟨-, hnext, hagain, -⟩ :=
      hend.step_next h.ends hactive h.remembers h.step_ne hholds' (h.bound _ (Nat.le_of_lt hk))
    rw [← steps_succ, ← steps_add] at hnext hagain
    rw [Nat.succ_mul]
    exact ⟨hagain hk, hnext⟩

/-- In each round the machine comes to the statements of the body one after the other, and then to
the `NEXT`. -/
theorem stands_statement {k j : Nat} (hk : k < rounds a b s) (hj : j ≤ body.length) :
    (m.steps (k * (body.length + 1) + j)).Stands line current (l :: outer)
        (loopFrom l.name after (body.drop j)) ∧
      (m.steps (k * (body.length + 1) + j)).Holds l.name (a + k * s) := by
  obtain ⟨hstands, hholds⟩ := h.stands_round hk
  rw [steps_add]
  refine hstands.steps_body (h.reachable.steps _) h.plain hholds (fun j hj => ?_) hj
  rw [← steps_add]
  exact h.succeeds k hk j hj

/-- The `NEXT` at the end of each round succeeds, and the last one leaves the loop. -/
theorem next {k : Nat} (hk : k < rounds a b s) :
    (m.steps (k * (body.length + 1) + body.length)).step.1 = none ∧
      (m.steps (k * (body.length + 1) + body.length)).step.2.Holds l.name
        (a + (k + 1 : Nat) * s) ∧
      (k + 1 = rounds a b s →
        (m.steps (k * (body.length + 1) + body.length)).step.2.Left line after ∧
          (m.steps (k * (body.length + 1) + body.length)).step.2.program.loops = outer) := by
  obtain ⟨hend, hvalue⟩ := h.stands_statement hk (Nat.le_refl body.length)
  rw [List.drop_length] at hend
  have hactive := (h.reachable.steps _).sound.active hend.running
  obtain ⟨hnone, hholds, -, hover⟩ :=
    hend.step_next h.ends hactive h.remembers h.step_ne hvalue (h.bound _ hk)
  exact ⟨hnone, hholds, fun hlast => hover (Nat.not_lt.mpr (Nat.le_of_eq hlast.symm))⟩

/-- No step fails until the loop is left, and then the variable has its next value. -/
theorem run :
    (m.steps (rounds a b s * (body.length + 1))).Left line after ∧
      (m.steps (rounds a b s * (body.length + 1))).program.loops = outer ∧
      (m.steps (rounds a b s * (body.length + 1))).Holds l.name (a + rounds a b s * s) ∧
      ∀ i < rounds a b s * (body.length + 1), (m.steps i).step.1 = none := by
  obtain ⟨k, hk⟩ : ∃ k, rounds a b s = k + 1 := Nat.exists_eq_add_one.mpr (rounds_pos a b s)
  obtain ⟨-, hlast, hover⟩ := h.next (k := k) (hk ▸ Nat.lt_succ_self k)
  obtain ⟨hleft, hloops⟩ := hover hk.symm
  have htotal : rounds a b s * (body.length + 1) = k * (body.length + 1) + body.length + 1 := by
    rw [hk, Nat.succ_mul]
    rfl
  rw [htotal, steps_succ, hk, ← htotal]
  refine ⟨hleft, hloops, hlast, fun i => ?_⟩
  exact steps_of_rounds (P := fun i => (m.steps i).step.1 = none) h.succeeds
    fun k hk => (h.next hk).1

end FirstRound

/-- The run of a loop over integers whose statements do not fail, from its `FOR` on. The body is
executed `rounds a b s` times, each time from its first statement to its last, and the `NEXT`
follows it. In the round number `k`, counted from zero, the variable has the value `a + k * s`, and
the loop is pending on top of those outside it. After the last round the machine has gone behind the
`NEXT`, the variable has its next value, and the pending loops are those from before the `FOR`,
without any earlier loop over the variable and those inside it. None of the steps fails. -/
theorem loop_rounds {loops : List Loop} {header : List Token} (hm : Reachable o m)
    (hfor : m.Stands line current loops
      (.keyword .FOR :: (header ++ .mark .colon :: loopFrom name after body)))
    (hheader : ∀ t ∈ header, t.endsStatement = false)
    (hafter : ∀ t ∈ after.head?, t.endsStatement = true)
    (hbody : ∀ p ∈ body, p.Proper ∧ p.Avoids name)
    (hopens : m.Opens name a b s) (hs : s ≠ 0)
    (hmax : ∀ k ≤ rounds a b s, (a + k * s).natAbs ≤ 2 ^ 53)
    (hstart : m.step.1 = none)
    (hok : ∀ k < rounds a b s, ∀ j < body.length,
      (m.steps (k * (body.length + 1) + j + 1)).step.1 = none) :
    (∃ l : Loop, l.name = name ∧ ∀ k < rounds a b s, ∀ j ≤ body.length,
      (m.steps (k * (body.length + 1) + j + 1)).Stands line current (l :: outside name loops)
          (loopFrom name after (body.drop j)) ∧
        (m.steps (k * (body.length + 1) + j + 1)).Holds name (a + k * s)) ∧
      (m.steps (rounds a b s * (body.length + 1) + 1)).Left line after ∧
      (m.steps (rounds a b s * (body.length + 1) + 1)).program.loops = outside name loops ∧
      (m.steps (rounds a b s * (body.length + 1) + 1)).Holds name (a + rounds a b s * s) ∧
      ∀ i ≤ rounds a b s * (body.length + 1), (m.steps i).step.1 = none := by
  obtain ⟨l, rfl, hl, hstands, hholds⟩ := (hfor.step_for hheader (hm.sound.active hfor.running)
    (exists_cons_loopFrom name after body) hopens).2 hstart
  have hfirst : FirstRound o line current (outside l.name loops) after l body a b s m.step.2 :=
    ⟨hm.perform .step, hstands, hafter, hl, hbody, hs, hholds, hmax, hok⟩
  obtain ⟨hleft, hloops, hlast, hnone⟩ := hfirst.run
  refine ⟨⟨l, rfl, fun k hk j hj => hfirst.stands_statement hk hj⟩, hleft, hloops, hlast,
    fun i hi => ?_⟩
  cases i with
  | zero => exact hstart
  | succ i => exact hnone i hi

end Run

/-- `FOR I=3 TO 1 STEP -2:PRINT I:NEXT I` -/
def countdownLine : List Token :=
  .keyword .FOR :: (integerHead (utf8 "I") 3 1 (-2) ++
    .mark .colon :: loopFrom (utf8 "I") [] [.print true [.symbol (utf8 "I")]])

/-- Here the variable goes down from 3 to 1 in one step, and to -1 behind the loop. -/
theorem loop_rounds_countdown :
    ∃ m, Reachable {} m ∧ m.Stands .immediate countdownLine [] countdownLine ∧
      m.Opens (utf8 "I") 3 1 (-2) ∧ m.step.1 = none ∧ rounds 3 1 (-2) = 2 ∧
      (m.steps 1).Holds (utf8 "I") 3 ∧ (m.steps 3).Holds (utf8 "I") 1 ∧
      (m.steps 5).Holds (utf8 "I") (-1) ∧ (m.steps 5).program.loops = [] := by
  have hread : Token.read (Bytes.trimLineEnds (utf8 "FOR I=3 TO 1 STEP -2:PRINT I:NEXT I")) =
      .ok countdownLine := by decide +kernel
  have hm : Reachable {} ((new {}).startImmediate countdownLine) := by
    rw [← perform_immediate (by decide +kernel) (by decide +kernel) hread rfl nofun]
    exact .perform _ .start
  have hfor : ((new {}).startImmediate countdownLine).Stands .immediate countdownLine []
      countdownLine := ⟨rfl, rfl, rfl, rfl, rfl⟩
  have hloops : 0 < ((new {}).startImmediate countdownLine).program.maxLoops := by decide +kernel
  generalize (new {}).startImmediate countdownLine = m at hm hfor hloops
  have hopens : m.Opens (utf8 "I") 3 1 (-2) :=
    hfor.opens_integers (by decide) (by decide) (by decide) (by decide)
  have hheader : ∀ t ∈ integerHead (utf8 "I") 3 1 (-2), t.endsStatement = false := by decide +kernel
  have hbody : ∀ p ∈ [Plain.print true [.symbol (utf8 "I")]], p.Proper ∧ p.Avoids (utf8 "I") := by
    intro p hp
    obtain rfl := List.mem_singleton.mp hp
    exact ⟨⟨by decide +kernel, nofun⟩, nofun⟩
  have hprinted : ∀ t ∈ [Token.symbol (utf8 "I")], t.Printed := by
    intro t ht
    obtain rfl := List.mem_singleton.mp ht
    exact .symbol _
  have hrounds : rounds 3 1 (-2) = 2 := by decide
  obtain ⟨hroom, hbegins⟩ := hfor.step_for hheader (hm.sound.active hfor.running)
    (exists_cons_loopFrom _ _ _) hopens
  have hstart := hroom.mpr hloops
  obtain ⟨l, hname, hl, hstands, hvalue⟩ := hbegins hstart
  have hfirst : (m.steps 1).step.1 = none := hstands.step_print hprinted
  have hsecond : (m.steps 3).step.1 = none := by
    have hm₁ : Reachable {} m.step.2 := hm.perform .step
    obtain ⟨hnext, hholds, hactive⟩ := hstands.steps_round hm₁ hbody hvalue fun j hj => by
      obtain rfl : j = 0 := by simpa using hj
      exact hfirst
    obtain ⟨-, hagain, -⟩ := hnext.step_next_again hname hactive hl ⟨_, _, rfl⟩ hholds (by decide)
      (by decide)
    exact hagain.step_print hprinted
  have hok : ∀ k < rounds 3 1 (-2), ∀ j < 1, (m.steps (k * (1 + 1) + j + 1)).step.1 = none := by
    intro k hk j hj
    rw [hrounds] at hk
    obtain rfl : j = 0 := by omega
    obtain rfl | rfl : k = 0 ∨ k = 1 := by omega
    · exact hfirst
    · exact hsecond
  obtain ⟨⟨_, -, hround⟩, -, hloops', hlast, -⟩ := loop_rounds hm hfor hheader nofun hbody hopens
    (by decide) (by intro k hk; rw [hrounds] at hk; omega) hstart hok
  rw [hrounds] at hlast hloops' hround
  exact ⟨m, hm, hfor, hopens, hstart, hrounds, (hround 0 (by decide) 0 (by decide)).2,
    (hround 1 (by decide) 0 (by decide)).2, hlast, hloops'⟩

end Machine

end LineBasic
