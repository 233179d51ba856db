import LineBasic.Proofs.Program.Transfer

/-!
# What stored lines show

A program remembers places as bare lines and indices: where a run was broken off, where calls return
to, where loops go on. Whether such a place makes sense can be read off the stored line, from the
tokens in front of it.

Transfer of control drops such places and goes elsewhere; only `GOSUB` and `FOR` add one.

## Main definitions

* `Spans` — an expression on a line
* `EndsGosub`, `EndsFor`, `StartsBody`, `FollowsDef` — what a line shows in front of a place
* `Program.Shows` — a stored line shows something at a place
* `Program.Sheds` — calls and loops were dropped, and nothing else that is remembered has changed

## Main results

* `Program.shedding_goTo`, `Program.shedding_returnFromGosub`, `Program.shedding_endLoop` —
  transfers of control only drop places
* `Program.sheds_gosub`, `Program.sheds_startLoop` — apart from the one that is added
-/

namespace LineBasic

/-! ### What a line shows in front of a place -/

/-- A whole expression stands on a line from the place `a` up to the place `b`. -/
def Spans (tokens : List Token) (a b : Nat) : Prop :=
  (Expr.read (tokens.drop a)).Whole ∧ b = a + (Expr.read (tokens.drop a)).width

/-- A `GOSUB` with its line number ends in front of a place. -/
def EndsGosub (tokens : List Token) (i : Nat) : Prop :=
  ∃ k, tokens[k]? = some (.keyword .GOSUB) ∧ Spans tokens (k + 1) i

/-- A `FOR` ends in front of a place, with or without a step, and with it the statement. -/
def EndsFor (tokens : List Token) (i : Nat) : Prop :=
  ∃ k name a b,
    tokens[k]? = some (.keyword .FOR) ∧
    tokens[k + 1]? = some (.symbol name) ∧
    tokens[k + 2]? = some (.mark .equal) ∧ Spans tokens (k + 3) a ∧
    tokens[a]? = some (.keyword .TO) ∧ Spans tokens (a + 1) b ∧
    (i = b ∨ tokens[b]? = some (.keyword .STEP) ∧ Spans tokens (b + 1) i) ∧
    ∀ t, tokens[i]? = some t → t.endsStatement = true

/-- There is a token at a place, and directly in front of it an equals sign. -/
def StartsBody (tokens : List Token) (i : Nat) : Prop :=
  i < tokens.length ∧ ∃ k, i = k + 1 ∧ tokens[k]? = some (.mark .equal)

/-- In front of a place there is a `DEF`, and no other statement starts in between. -/
def FollowsDef (tokens : List Token) (i : Nat) : Prop :=
  ∃ k, k < i ∧ tokens[k]? = some (.keyword .DEF) ∧ Inside tokens (k + 1) i

namespace Program

/-- A place is on a stored line, which shows something there. -/
def Shows (P : List Token → Nat → Prop) (p : Program) (loc : Location) : Prop :=
  ∃ n tokens, loc.line = .numbered n ∧ p.lines[n]? = some tokens ∧ P tokens loc.index

/-- A place is within its line or right behind it. -/
def OnLine (p : Program) (loc : Location) : Prop :=
  p.Shows (fun tokens i => i ≤ tokens.length) loc

variable {p q : Program} {loc : Location} {P : List Token → Nat → Prop}

theorem Shows.congr (h : p.Shows P loc) (hlines : q.lines = p.lines) : q.Shows P loc := by
  obtain ⟨n, tokens, hline, htokens, hP⟩ := h
  exact ⟨n, tokens, hline, by rw [hlines, htokens], hP⟩

/-- What the current tokens show, the line shows, if it is a stored one. -/
theorem Synced.shows (h : p.Synced) (hP : P p.current p.location.index) :
    p.location.line = .immediate ∨ p.Shows P p.location := by
  cases hline : p.location.line with
  | immediate => exact .inl rfl
  | numbered n =>
    rw [Synced, hline] at h
    exact .inr ⟨n, p.current, hline, h, hP⟩

/-- Calls and loops were dropped, and the location has changed. -/
structure Sheds (p q : Program) : Prop where
  lines : q.lines = p.lines
  breakpoint : q.breakpoint = p.breakpoint
  calls : q.calls ⊆ p.calls
  loops : q.loops ⊆ p.loops

namespace Sheds

theorem refl (p : Program) : p.Sheds p :=
  ⟨rfl, rfl, List.Subset.refl _, List.Subset.refl _⟩

theorem withCalls {calls : List Frame} (h : calls ⊆ p.calls) : p.Sheds { p with calls } :=
  ⟨rfl, rfl, h, List.Subset.refl _⟩

theorem withLoops {loops : List Loop} (h : loops ⊆ p.loops) : p.Sheds { p with loops } :=
  ⟨rfl, rfl, List.Subset.refl _, h⟩

/-- Wherever control goes afterwards plays no part. -/
theorem moveTo? (h : p.Sheds q) {q' : Program} (hmove : q.moveTo? loc = some q') (jumped : Bool) :
    p.Sheds { q' with jumped } := by
  obtain ⟨tokens, rfl⟩ := moveTo?_eq_some hmove
  exact ⟨h.lines, h.breakpoint, h.calls, h.loops⟩

end Sheds

/-- An action that only drops calls and loops and goes elsewhere, however it ends. -/
def Shedding {α : Type} (x : Action α) : Prop :=
  ∀ p, Concludes (fun _ q => p.Sheds q) (fun _ q => p.Sheds q) (x p)

theorem shedding_goTo (n : Nat) : Shedding (goTo n) := by
  intro p
  rw [goTo]
  split
  · next q hmove => exact (Sheds.refl p).moveTo? hmove true
  · exact .refl p

theorem shedding_returnFromGosub : Shedding returnFromGosub := by
  intro p
  rw [returnFromGosub]
  split
  · next ret calls hcalls =>
    have hless : p.Sheds { p with calls } :=
      .withCalls (hcalls ▸ List.subset_cons_self _ _)
    dsimp only
    split
    · next q hmove => exact hless.moveTo? hmove true
    · exact hless
  · exact .refl p

theorem shedding_endLoop (name : Name) (value : Float) : Shedding (endLoop name value) := fun p =>
  endLoop_rule name value (.refl p)
    (fun _ _ h => .withLoops (List.Subset.trans (List.subset_cons_self _ _) h.subset))
    (fun _ _ h _ hmove => (Sheds.withLoops h.subset).moveTo? hmove true)
    fun _ _ h => .withLoops h.subset

theorem shedding_nextDatum : Shedding nextDatum := by
  intro p
  rw [nextDatum]
  split
  · exact ⟨rfl, rfl, List.Subset.refl _, List.Subset.refl _⟩
  · exact .refl p

/-- A `GOSUB` adds one call, and nothing else. -/
theorem sheds_gosub (n : Nat) (p : Program) :
    Concludes (fun _ q => { p with calls := .gosub p.location :: p.calls }.Sheds q)
      (fun _ q => { p with calls := .gosub p.location :: p.calls }.Sheds q) (gosub n p) := by
  have hsame : { p with calls := .gosub p.location :: p.calls }.Sheds p :=
    .withCalls (List.subset_cons_self _ _)
  rw [gosub, get_bind_apply]
  split
  · exact hsame
  · simp only [bind_apply, pushFrame]
    by_cases hroom : p.maxCalls ≤ p.calls.length
    · rw [if_pos hroom]
      exact hsame
    · rw [if_neg hroom]
      exact shedding_goTo n _

/-- A `FOR` adds one loop, and nothing else. -/
theorem sheds_startLoop (name : Name) (limit step : Float) (p : Program) :
    Concludes (fun _ q => { p with loops := ⟨p.location, name, limit, step⟩ :: p.loops }.Sheds q)
      (fun _ q => { p with loops := ⟨p.location, name, limit, step⟩ :: p.loops }.Sheds q)
      (startLoop name limit step p) := by
  obtain ⟨kept, hkept, -, hstart⟩ := exists_kept name p
  rw [hstart limit step p rfl]
  split
  · exact ⟨rfl, rfl, List.Subset.refl _, List.subset_cons_of_subset _ hkept.subset⟩
  · exact ⟨rfl, rfl, List.Subset.refl _, List.cons_subset_cons _ hkept.subset⟩

end Program

end LineBasic
