import LineBasic.Proofs.Expr.Whole
import LineBasic.Proofs.Program.Sound

/-!
# Where control goes

A statement leaves its line in one of few ways. It goes on to what follows it, drops the rest of its
line, goes to the start of a line, or goes back to a place that a pending call or loop remembers.
The places remembered are those from before, except that `GOSUB` and `FOR` remember the place behind
themselves.

Each transfer of control is described here once, by the program that it leaves behind.

## Main definitions

* `Inside` — a stretch of a line whose tokens all stand inside a statement
* `Program.Resumes` — a place that a pending call or loop goes back to
* `Program.Opens` — the place that a `GOSUB` or `FOR` remembers
* `Program.Kept` — what a statement leaves alone, wherever it goes
* `Program.Belongs` — the tokens that a statement passes
* `Program.Goes` — where a statement goes

## Main results

* `Program.concludes_goTo`, `Program.concludes_gosub`, `Program.concludes_returnFromGosub`,
  `Program.concludes_startLoop`, `Program.concludes_endLoop` — the transfers of control
-/

namespace LineBasic

/-- Keywords and marks are told by their kind. -/
theorem Token.eq_keyword_of_kind {t : Token} {k : Keyword} (h : t.kind = .keyword k) :
    t = .keyword k := by
  cases t
  all_goals cases h
  rfl

theorem Token.eq_mark_of_kind {t : Token} {m : Mark} (h : t.kind = .mark m) : t = .mark m := by
  cases t
  all_goals cases h
  rfl

/-- A property of the next `n` tokens from the place `a` on, by their places on the line. -/
theorem of_mem_take {tokens : List Token} {P : Token → Prop} {a n i : Nat} {t : Token}
    (h : ∀ s ∈ (tokens.drop a).take n, P s) (ha : a ≤ i) (hb : i < a + n)
    (hi : tokens[i]? = some t) : P t := by
  -- the place counts from the start of the line, the stretch from its own start
  have hdrop : (tokens.drop a)[i - a]? = some t := by
    rw [List.getElem?_drop, Nat.add_sub_cancel' ha, hi]
  have htake : ((tokens.drop a).take n)[i - a]? = some t := by
    rw [List.getElem?_take_of_lt (by omega), hdrop]
  exact h t (List.mem_of_getElem? htake)

/-- The same of the tokens up to the first one without the property. -/
theorem of_mem_takeWhile {tokens : List Token} {f : Token → Bool} {a i : Nat} {t : Token}
    (ha : a ≤ i) (hb : i < a + ((tokens.drop a).takeWhile f).length) (hi : tokens[i]? = some t) :
    f t = true := by
  have hprefix := List.prefix_iff_eq_take.mp (List.takeWhile_prefix (p := f) (l := tokens.drop a))
  refine of_mem_take (P := fun t => f t = true) (fun s hs => ?_) ha hb hi
  rw [← hprefix] at hs
  exact List.all_eq_true.mp List.all_takeWhile s hs

/-- How many tokens have the property up to the first one without it. -/
theorem length_takeWhile_eq {f : Token → Bool} {tokens : List Token} {n : Nat}
    (hn : n ≤ tokens.length) (hall : ∀ i t, i < n → tokens[i]? = some t → f t = true)
    (hstop : ∀ t, tokens[n]? = some t → f t = false) : (tokens.takeWhile f).length = n := by
  induction tokens generalizing n with
  | nil => exact (Nat.le_zero.mp hn).symm
  | cons t tokens ih =>
    cases n with
    | zero => rw [List.takeWhile_cons_of_neg (by simp [hstop t rfl]), List.length_nil]
    | succ n =>
      rw [List.takeWhile_cons_of_pos (hall 0 t (Nat.succ_pos n) rfl), List.length_cons]
      refine congrArg (· + 1) (ih (Nat.le_of_succ_le_succ hn) (fun i s hi hs => ?_) hstop)
      exact hall (i + 1) s (Nat.succ_lt_succ hi) hs

/-- The tokens of a line from the place `a` up to the place `b` all stand inside a statement. -/
def Inside (tokens : List Token) (a b : Nat) : Prop :=
  ∀ i t, a ≤ i → i < b → tokens[i]? = some t → t.isInner = true

namespace Inside

variable {tokens : List Token} {a b c : Nat}

theorem refl (tokens : List Token) (a : Nat) : Inside tokens a a := by
  intro i t ha hb
  omega

theorem trans (h : Inside tokens a b) (h' : Inside tokens b c) : Inside tokens a c := by
  intro i t ha hc hi
  by_cases hb : i < b
  · exact h i t ha hb hi
  · exact h' i t (by omega) hc hi

theorem single {t : Token} (hi : tokens[a]? = some t) (ht : t.isInner = true) :
    Inside tokens a (a + 1) := by
  intro i s ha hb hs
  obtain rfl : i = a := by omega
  rw [hi] at hs
  cases hs
  exact ht

/-- One more token that stands inside a statement. -/
theorem next {t : Token} (h : Inside tokens a b) (hc : c = b + 1) (hb : tokens[b]? = some t)
    (ht : t.isInner = true) : Inside tokens a c := by
  rw [hc]
  exact h.trans (.single hb ht)

theorem of_take {n : Nat} (h : ∀ t ∈ (tokens.drop a).take n, t.isInner = true) :
    Inside tokens a (a + n) :=
  fun _ _ ha hb hi => of_mem_take h ha hb hi

end Inside

namespace Program

variable {p q : Program} {loc : Location}

theorem peek?_of_peekKind? {k : Keyword} (h : p.peekKind? = some (.keyword k)) :
    p.peek? = some (.keyword k) := by
  obtain ⟨t, ht, hkind⟩ := Option.map_eq_some_iff.mp h
  rw [ht, Token.eq_keyword_of_kind hkind]

theorem peek?_of_peekKind?_mark {m : Mark} (h : p.peekKind? = some (.mark m)) :
    p.peek? = some (.mark m) := by
  obtain ⟨t, ht, hkind⟩ := Option.map_eq_some_iff.mp h
  rw [ht, Token.eq_mark_of_kind hkind]

theorem rest_skip (p : Program) (n : Nat) : (p.skip n).rest = p.rest.drop n := by
  rw [rest, rest, List.drop_drop]
  rfl

/-- The first token that is left is the one at the location. -/
theorem peek?_eq_head? (p : Program) : p.peek? = p.rest.head? := by
  rw [peek?, rest, List.head?_drop]

theorem peek?_of_rest {t : Token} {ts : List Token} (h : p.rest = t :: ts) : p.peek? = some t := by
  rw [peek?_eq_head?, h]
  rfl

/-- The tokens of a line are among what is stored. -/
theorem tokensOf?_congr (hlines : q.lines = p.lines) (himmediate : q.immediate = p.immediate)
    (line : Line) : q.tokensOf? line = p.tokensOf? line := by
  cases line with
  | immediate => exact congrArg some himmediate
  | numbered n => exact congrArg (fun lines => lines[n]?) hlines

/-- A pending call or loop goes back to a place. -/
def Resumes (p : Program) (loc : Location) : Prop :=
  (∃ f ∈ p.calls, f.ret = loc) ∨ ∃ l ∈ p.loops, l.resume = loc

theorem Resumes.mono (h : q.Resumes loc) (hcalls : q.calls ⊆ p.calls) (hloops : q.loops ⊆ p.loops) :
    p.Resumes loc := by
  rcases h with ⟨f, hf, hret⟩ | ⟨l, hl, hresume⟩
  · exact .inl ⟨f, hcalls hf, hret⟩
  · exact .inr ⟨l, hloops hl, hresume⟩

/-- A `GOSUB` or `FOR` at the location remembers a place: one behind itself, with nothing but its
own tokens in between. -/
structure Opens (p : Program) (loc : Location) : Prop where
  keyword : p.peek? = some (.keyword .GOSUB) ∨ p.peek? = some (.keyword .FOR)
  line : loc.line = p.location.line
  behind : p.location.index < loc.index
  inside : Inside p.current (p.location.index + 1) loc.index

/-- What a statement at the location of `p` leaves alone, wherever it goes: the lines, the point
where a run was interrupted, and the places that calls and loops go back to, except for one that it
opens itself. -/
structure Kept (p q : Program) : Prop where
  lines : q.lines = p.lines
  immediate : q.immediate = p.immediate
  breakpoint : q.breakpoint = p.breakpoint
  resumes : ∀ loc, q.Resumes loc → p.Resumes loc ∨ p.Opens loc

theorem Kept.refl (p : Program) : p.Kept p :=
  ⟨rfl, rfl, rfl, fun _ hloc => .inl hloc⟩

/-- The location plays no part. -/
theorem Kept.atIndex (h : p.Kept q) (i : Nat) : p.Kept (q.atIndex i) :=
  ⟨h.lines, h.immediate, h.breakpoint, h.resumes⟩

/-- What stands between the start of a statement, at the place `a`, and the place `b` on the same
line: nothing that ends a statement, and no `IF` unless it is part of a definition. -/
def Belongs (tokens : List Token) (a b : Nat) : Prop :=
  a ≤ b ∧
    (tokens[a]? ≠ some (.keyword .IF) ∧ Inside tokens (a + 1) b ∨
      tokens[a]? = some (.keyword .DEF) ∧
        ∀ i t, a < i → i < b → tokens[i]? = some t → t.endsStatement = false)

/-- Where a statement at the location of `p` goes. -/
inductive Goes (p q : Program) : Prop where
  /-- On to what follows it. -/
  | onward (line : q.location.line = p.location.line) (current : q.current = p.current)
      (jumped : q.jumped = p.jumped)
      (belongs : Belongs p.current p.location.index q.location.index)
  /-- To the end of its line. -/
  | dropped (line : q.location.line = p.location.line) (current : q.current = p.current)
      (index : q.location.index = p.current.length)
  /-- To the start of a line. -/
  | start (jumped : q.jumped = true) (index : q.location.index = 0)
  /-- Back to the place of a pending call or loop, or to the end of the line if the line is shorter
  by now. -/
  | back (loc : Location) (jumped : q.jumped = true) (resumes : p.Resumes loc)
      (location : q.location = ⟨loc.line, min loc.index q.current.length⟩)

/-! ### The transfers of control -/

theorem moveTo?_eq_some (h : p.moveTo? loc = some q) :
    ∃ tokens, q = { p with
      location := ⟨loc.line, min loc.index tokens.length⟩
      current := tokens } := by
  obtain ⟨tokens, -, rfl⟩ := Option.map_eq_some_iff.mp h
  exact ⟨tokens, rfl⟩

/-- A run goes on where it was broken, and that place is no longer remembered. -/
theorem continueRun_eq_ok (h : continueRun p = .ok () q) :
    ∃ loc tokens, p.breakpoint = some loc ∧ p.tokensOf? loc.line = some tokens ∧
      q = { p with
        breakpoint := none
        location := ⟨loc.line, min loc.index tokens.length⟩
        current := tokens } := by
  rw [continueRun] at h
  split at h
  · cases h
  · next loc hbreak =>
    split at h
    · next p' hmove =>
      cases h
      obtain ⟨tokens, htokens, rfl⟩ := Option.map_eq_some_iff.mp hmove
      exact ⟨loc, tokens, hbreak, htokens, rfl⟩
    · cases h

theorem concludes_goTo (n : Nat) (p : Program) :
    Concludes
      (fun _ q => ∃ tokens, q = { p with
        location := (Line.numbered n).start, current := tokens, jumped := true })
      (fun _ _ => True) (goTo n p) := by
  rw [goTo]
  split
  · next q hmove =>
    obtain ⟨tokens, rfl⟩ := moveTo?_eq_some hmove
    exact ⟨tokens, rfl⟩
  · trivial

theorem concludes_gosub (n : Nat) (p : Program) :
    Concludes
      (fun _ q => ∃ tokens, q = { p with
        calls := .gosub p.location :: p.calls
        location := (Line.numbered n).start, current := tokens, jumped := true })
      (fun _ _ => True) (gosub n p) := by
  rw [gosub, get_bind_apply]
  split
  · trivial
  · simp only [bind_apply, pushFrame]
    by_cases hroom : p.maxCalls ≤ p.calls.length
    · rw [if_pos hroom]
      trivial
    · rw [if_neg hroom]
      exact concludes_goTo n _

theorem concludes_returnFromGosub (p : Program) :
    Concludes
      (fun _ q => ∃ ret calls tokens, p.calls = .gosub ret :: calls ∧ q = { p with
        calls
        location := ⟨ret.line, min ret.index tokens.length⟩, current := tokens, jumped := true })
      (fun _ _ => True) (returnFromGosub p) := by
  rw [returnFromGosub]
  split
  · next ret calls hcalls =>
    dsimp only
    split
    · next q hmove =>
      obtain ⟨tokens, rfl⟩ := moveTo?_eq_some hmove
      exact ⟨ret, calls, tokens, hcalls, rfl⟩
    · trivial
  · trivial

theorem concludes_startLoop (name : Name) (limit step : Float) (p : Program) :
    Concludes
      (fun _ q => ∃ kept, kept.Sublist p.loops ∧
        q = { p with loops := ⟨p.location, name, limit, step⟩ :: kept })
      (fun _ _ => True) (startLoop name limit step p) := by
  obtain ⟨kept, hkept, -, hstart⟩ := exists_kept name p
  rw [hstart limit step p rfl]
  split
  · trivial
  · exact ⟨kept, hkept, rfl⟩

/-- A round ends with the loop or with the start of its body. -/
theorem concludes_endLoop (name : Name) (value : Float) (p : Program) :
    Concludes
      (fun _ q => ∃ l outer, (l :: outer).Sublist p.loops ∧
        (q = { p with loops := outer } ∨ ∃ tokens, q = { p with
          loops := l :: outer
          location := ⟨l.resume.line, min l.resume.index tokens.length⟩, current := tokens
          jumped := true }))
      (fun _ _ => True) (endLoop name value p) := by
  refine endLoop_rule name value trivial (fun l outer h => ⟨l, outer, h, .inl rfl⟩)
    (fun l outer h q hmove => ?_) fun _ _ _ => trivial
  obtain ⟨tokens, rfl⟩ := moveTo?_eq_some hmove
  exact ⟨l, outer, h, .inr ⟨tokens, rfl⟩⟩

end Program

end LineBasic
