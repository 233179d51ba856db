import LineBasic.Proofs.Program.Transfer

/-!
# Programs that do not look at the immediate line

While a program executes stored lines, and all its calls and loops go back to stored lines, it looks
neither at the immediate line nor at the point where a run was broken off. So each of its actions
does the same under a veil that puts another immediate line and another breakpoint in their place,
and it stays on stored lines.

## Main definitions

* `Program.OnStored` — nothing goes on or goes back to the immediate line
* `Program.veiled` — a program with another immediate line and another breakpoint
* `Program.Agrees` — an action that does the same under the veil

## Main results

* `Program.agreesAt_of_arrive` — going to a stored line
* `Program.agrees_goTo`, `Program.agrees_gosub`, `Program.agrees_returnFromGosub`,
  `Program.agrees_pushFunction`, `Program.agrees_popFunction` — jumps and calls
* `Program.agrees_startLoop`, `Program.agrees_endLoop` — loops
-/

namespace LineBasic

namespace Program

variable {α β : Type} {p q : Program} {loc : Location}

/-- The program with another immediate line and another breakpoint. -/
def veiled (p : Program) (immediate : List Token) (breakpoint : Option Location) : Program :=
  { p with immediate, breakpoint }

/-- A program that executes a stored line, and to stored lines all its calls and loops go back. -/
def OnStored (p : Program) : Prop :=
  p.location.line.isNumbered = true ∧
    (∀ f ∈ p.calls, f.ret.line.isNumbered = true) ∧
    ∀ l ∈ p.loops, l.resume.line.isNumbered = true

/-- Where a stored line leads to has nothing to do with the immediate line. -/
theorem moveTo?_veiled (p : Program) (h : loc.line.isNumbered = true) (immediate : List Token)
    (breakpoint : Option Location) :
    (p.veiled immediate breakpoint).moveTo? loc =
      (p.moveTo? loc).map (·.veiled immediate breakpoint) := by
  obtain ⟨line, index⟩ := loc
  cases line with
  | immediate => cases h
  | numbered n =>
    rw [moveTo?, moveTo?]
    change (p.lines[n]?).map _ = ((p.lines[n]?).map _).map _
    rw [Option.map_map]
    rfl

theorem OnStored.moveTo? (h : p.OnStored) (hloc : loc.line.isNumbered = true)
    (hmove : p.moveTo? loc = some q) : q.OnStored := by
  obtain ⟨tokens, rfl⟩ := moveTo?_eq_some hmove
  exact ⟨hloc, h.2⟩

/-- The line after a line depends on nothing but the stored lines. -/
theorem advance?_congr (hlines : q.lines = p.lines) (hlocation : q.location = p.location) :
    p.advance? = none ∧ q.advance? = none ∨
      ∃ n tokens,
        p.advance? = some { p with location := (Line.numbered n).start, current := tokens } ∧
        q.advance? = some { q with location := (Line.numbered n).start, current := tokens } := by
  have hmove : ∀ (r : Program) (n : Nat), r.moveTo? (Line.numbered n).start =
      r.lines[n]?.map fun tokens =>
        { r with location := (Line.numbered n).start, current := tokens } := by
    intro r n
    simp [moveTo?, tokensOf?, Line.start]
  rw [advance?, advance?, hlocation]
  cases p.location.line with
  | immediate => exact .inl ⟨rfl, rfl⟩
  | numbered k =>
    simp only [hmove, hlines]
    cases p.lines.getKeyGT? k with
    | none => exact .inl ⟨rfl, rfl⟩
    | some n =>
      simp only [Option.bind_some]
      cases p.lines[n]? with
      | none => exact .inl ⟨rfl, rfl⟩
      | some tokens => exact .inr ⟨n, tokens, rfl, rfl⟩

theorem startAtFirst?_eq_none (h : p.lines = ∅) : p.startAtFirst? = none := by
  rw [startAtFirst?, Std.ExtTreeMap.minKey?_eq_none_iff.mpr h, Option.bind_none]

/-- The lowest line depends on nothing but the stored lines. -/
theorem startAtFirst?_eq_some (h : p.lines ≠ ∅) :
    ∃ n tokens, ∀ q : Program, q.lines = p.lines →
      q.startAtFirst? =
        some { q with location := (Line.numbered n).start, current := tokens } := by
  cases hfirst : p.lines.minKey? with
  | none => exact absurd (Std.ExtTreeMap.minKey?_eq_none_iff.mp hfirst) h
  | some n =>
    have hstored := Std.ExtTreeMap.mem_iff_isSome_getElem?.mp (Std.ExtTreeMap.minKey?_mem hfirst)
    obtain ⟨tokens, htokens⟩ := Option.isSome_iff_exists.mp hstored
    refine ⟨n, tokens, fun q hq => ?_⟩
    simp [startAtFirst?, hq, hfirst, moveTo?, tokensOf?, Line.start, htokens]

/-- An action of a program does the same whatever the immediate line and the breakpoint are, and it
does not leave the stored lines. -/
def AgreesAt (x : Action α) (p : Program) : Prop :=
  (∀ immediate breakpoint, x (p.veiled immediate breakpoint) =
      mapEnd (·.veiled immediate breakpoint) (x p)) ∧
    Concludes (fun _ q => q.OnStored) (fun _ q => q.OnStored) (x p)

/-- An action of a program that does not look at the immediate line or the breakpoint, as long as
the program stays on stored lines. -/
def Agrees (x : Action α) : Prop :=
  ∀ p, p.OnStored → AgreesAt x p

theorem agrees_accept (k : Token.Kind) : Agrees (accept k) := by
  intro p h
  constructor
  · intro immediate breakpoint
    change (if p.peekKind? = some k then _ else _) = mapEnd _ (if _ then _ else _)
    by_cases hk : p.peekKind? = some k
    · rw [if_pos hk, if_pos hk]
      rfl
    · rw [if_neg hk, if_neg hk]
      rfl
  · rw [accept]
    split
    · exact h
    · exact h

theorem agrees_expect (k : Token.Kind) : Agrees (expect k) := by
  intro p h
  constructor
  · intro immediate breakpoint
    have hpeek : (p.veiled immediate breakpoint).peekKind? = p.peekKind? := rfl
    rw [expect, expect, hpeek]
    cases p.peekKind? with
    | none => rfl
    | some k' =>
      by_cases hk : k' = k
      · simp only [if_pos hk]
        rfl
      · simp only [if_neg hk]
        rfl
  · rw [expect]
    cases p.peekKind? with
    | none => exact h
    | some k' =>
      dsimp only
      split
      · exact h
      · exact h

theorem agrees_nextName : Agrees nextName := by
  intro p h
  constructor
  · intro immediate breakpoint
    have hpeek : (p.veiled immediate breakpoint).peek? = p.peek? := rfl
    rw [nextName, nextName, hpeek]
    cases p.peek? with
    | none => rfl
    | some t =>
      cases t
      all_goals rfl
  · rw [nextName]
    split
    · exact h
    · exact h
    · exact h

theorem agrees_rewindBefore (k : Token.Kind) : Agrees (rewindBefore k) := by
  intro p h
  constructor
  · intro immediate breakpoint
    rw [rewindBefore, rewindBefore, rewindBefore?, rewindBefore?]
    change (if p.current.length < p.location.index then _ else _) = _
    by_cases hbehind : p.current.length < p.location.index
    · rw [if_pos hbehind, if_pos hbehind]
      rfl
    · rw [if_neg hbehind, if_neg hbehind]
      have hlast : lastBefore? (p.veiled immediate breakpoint).current k
          (p.veiled immediate breakpoint).location.index =
            lastBefore? p.current k p.location.index := rfl
      rw [hlast]
      cases lastBefore? p.current k p.location.index with
      | none => rfl
      | some i => rfl
  · rw [rewindBefore, rewindBefore?]
    split
    · exact h
    · cases lastBefore? p.current k p.location.index with
      | none => exact h
      | some i => exact h

theorem agrees_nextDatum : Agrees nextDatum := by
  intro p h
  constructor
  · intro immediate breakpoint
    have hdata : (p.veiled immediate breakpoint).data = p.data := rfl
    have hindex : (p.veiled immediate breakpoint).dataIndex = p.dataIndex := rfl
    rw [nextDatum, nextDatum, hdata, hindex]
    cases p.data[p.dataIndex]? with
    | none => rfl
    | some d => rfl
  · rw [nextDatum]
    split
    · exact h
    · exact h

/-! ### Going to a stored line -/

/-- Where a place on a stored line is has nothing to do with the immediate line. -/
theorem agreesAt_of_arrive {x : Action α} {base lost : Program} {found : Program → Program} {a : α}
    {c : Cause} (hx : x p = base.arrive loc found lost a c)
    (hveiled : ∀ immediate breakpoint, x (p.veiled immediate breakpoint) =
      (base.veiled immediate breakpoint).arrive loc found (lost.veiled immediate breakpoint) a c)
    (hbase : base.OnStored) (hlost : lost.OnStored) (hloc : loc.line.isNumbered = true)
    (hfound : ∀ q : Program, q.OnStored → (found q).OnStored ∧ ∀ immediate breakpoint,
      found (q.veiled immediate breakpoint) = (found q).veiled immediate breakpoint) :
    AgreesAt x p := by
  rw [AgreesAt, hx, arrive]
  cases hmove : base.moveTo? loc with
  | none =>
    refine ⟨fun immediate breakpoint => ?_, hlost⟩
    rw [hveiled, arrive, moveTo?_veiled base hloc, hmove]
    rfl
  | some q =>
    obtain ⟨hstored, hsame⟩ := hfound q (hbase.moveTo? hloc hmove)
    refine ⟨fun immediate breakpoint => ?_, hstored⟩
    rw [hveiled, arrive, moveTo?_veiled base hloc, hmove]
    exact congrArg (EStateM.Result.ok a) (hsame immediate breakpoint)

theorem withJump_agrees (q : Program) (h : q.OnStored) :
    q.withJump.OnStored ∧ ∀ immediate breakpoint,
      (q.veiled immediate breakpoint).withJump = q.withJump.veiled immediate breakpoint :=
  ⟨h, fun _ _ => rfl⟩

theorem goTo_eq (n : Nat) (p : Program) :
    goTo n p = p.arrive (Line.numbered n).start withJump p () .undefinedStatement := rfl

theorem agrees_goTo (n : Nat) : Agrees (goTo n) := fun p h =>
  agreesAt_of_arrive (goTo_eq n p) (fun i b => goTo_eq n (p.veiled i b)) h h rfl withJump_agrees

theorem gosub_eq (n : Nat) (p : Program) :
    gosub n p =
      if p.hasLine n = false then .error .undefinedStatement p
      else if p.maxCalls ≤ p.calls.length then .error .stackOverflow p
      else goTo n { p with calls := .gosub p.location :: p.calls } := by
  rw [gosub, get_bind_apply]
  cases p.hasLine n with
  | false => rfl
  | true =>
    by_cases hroom : p.maxCalls ≤ p.calls.length
    · simp [bind_apply, pushFrame, hroom]
    · simp [bind_apply, pushFrame, hroom]

/-- A call comes back to a stored line. -/
theorem OnStored.push (h : p.OnStored) {f : Frame} (hf : f.ret.line.isNumbered = true) :
    { p with calls := f :: p.calls }.OnStored :=
  ⟨h.1, List.forall_mem_cons.mpr ⟨hf, h.2.1⟩, h.2.2⟩

theorem agrees_gosub (n : Nat) : Agrees (gosub n) := by
  intro p h
  have hgo := agrees_goTo n { p with calls := .gosub p.location :: p.calls } (h.push h.1)
  constructor
  · intro immediate breakpoint
    rw [gosub_eq, gosub_eq]
    change (if p.hasLine n = false then _ else if p.maxCalls ≤ p.calls.length then _ else _) = _
    split
    · rfl
    · split
      · rfl
      · exact hgo.1 immediate breakpoint
  · rw [gosub_eq]
    split
    · exact h
    · split
      · exact h
      · exact hgo.2

/-- The calls outside a call go back to stored lines as well. -/
theorem OnStored.pop (h : p.OnStored) {f : Frame} {calls : List Frame}
    (hcalls : p.calls = f :: calls) :
    { p with calls }.OnStored ∧ f.ret.line.isNumbered = true := by
  obtain ⟨hlocation, hreturns, hresumes⟩ := h
  rw [hcalls] at hreturns
  exact ⟨⟨hlocation, fun g hg => hreturns g (List.mem_cons_of_mem _ hg), hresumes⟩,
    hreturns f List.mem_cons_self⟩

theorem agrees_returnFromGosub : Agrees returnFromGosub := by
  intro p h
  by_cases hcalls : ∃ ret calls, p.calls = .gosub ret :: calls
  · obtain ⟨ret, calls, hcalls⟩ := hcalls
    obtain ⟨hless, hret⟩ := h.pop hcalls
    have hreturn : ∀ q : Program, q.calls = .gosub ret :: calls → returnFromGosub q =
        { q with calls }.arrive ret withJump { q with calls } () .undefinedStatement := by
      intro q hq
      rw [returnFromGosub, hq]
      rfl
    exact agreesAt_of_arrive (hreturn p hcalls) (fun _ _ => hreturn (p.veiled _ _) hcalls) hless
      hless hret withJump_agrees
  · have hnone : ∀ q : Program, q.calls = p.calls →
        returnFromGosub q = .error .returnWithoutGosub q := by
      intro q hq
      rw [returnFromGosub, hq]
      split
      · next ret calls heq => exact absurd ⟨ret, calls, heq⟩ hcalls
      · rfl
    rw [AgreesAt, hnone p rfl]
    exact ⟨fun _ _ => hnone (p.veiled _ _) rfl, h⟩

theorem agrees_pushFunction (params : Bindings) {body : Location}
    (hbody : body.line.isNumbered = true) : Agrees (pushFunction params body) := by
  intro p h
  have hcall : ∀ q : Program, pushFunction params body q =
      if q.maxCalls ≤ q.calls.length then .error .stackOverflow q
      else { q with calls := .function q.location params :: q.calls }.arrive body id q ()
        .undefinedStatement := by
    intro q
    rw [pushFunction, pushFrame]
    by_cases hroom : q.maxCalls ≤ q.calls.length
    · simp only [if_pos hroom]
    · simp only [if_neg hroom]
      rfl
  by_cases hroom : p.maxCalls ≤ p.calls.length
  · rw [AgreesAt, hcall, if_pos hroom]
    exact ⟨fun _ _ => (hcall _).trans (if_pos hroom), h⟩
  · exact agreesAt_of_arrive ((hcall p).trans (if_neg hroom))
      (fun _ _ => (hcall _).trans (if_neg hroom)) (h.push h.1) h hbody
      fun q hq => ⟨hq, fun _ _ => rfl⟩

theorem agrees_popFunction : Agrees popFunction := by
  intro p h
  by_cases hcalls : ∃ ret params calls, p.calls = .function ret params :: calls
  · obtain ⟨ret, params, calls, hcalls⟩ := hcalls
    obtain ⟨hless, hret⟩ := h.pop hcalls
    have hreturn : ∀ q : Program, q.calls = .function ret params :: calls → popFunction q =
        { q with calls }.arrive ret id { q with calls } () (.internal .callerLineVanished) := by
      intro q hq
      rw [popFunction, hq]
      rfl
    exact agreesAt_of_arrive (hreturn p hcalls) (fun _ _ => hreturn (p.veiled _ _) hcalls) hless
      hless hret fun q hq => ⟨hq, fun _ _ => rfl⟩
  · have hnone : ∀ q : Program, q.calls = p.calls →
        popFunction q = .error (.internal .functionFrameMissing) q := by
      intro q hq
      rw [popFunction, hq]
      split
      · next ret params calls heq => exact absurd ⟨ret, params, calls, heq⟩ hcalls
      · rfl
    rw [AgreesAt, hnone p rfl]
    exact ⟨fun _ _ => hnone (p.veiled _ _) rfl, h⟩

/-! ### Loops -/

theorem OnStored.withLoops (h : p.OnStored) {loops : List Loop}
    (hloops : ∀ l ∈ loops, l.resume.line.isNumbered = true) : { p with loops }.OnStored :=
  ⟨h.1, h.2.1, hloops⟩

theorem agrees_startLoop (name : Name) (limit step : Float) :
    Agrees (startLoop name limit step) := by
  intro p h
  obtain ⟨kept, hkept, -, hstart⟩ := exists_kept name p
  have hless : ∀ l ∈ kept, l.resume.line.isNumbered = true := fun l hl => h.2.2 l (hkept.subset hl)
  by_cases hroom : p.maxLoops ≤ kept.length
  · rw [AgreesAt, (hstart limit step p rfl).trans (if_pos hroom)]
    exact ⟨fun i b => (hstart limit step (p.veiled i b) rfl).trans (if_pos hroom),
      h.withLoops hless⟩
  · rw [AgreesAt, (hstart limit step p rfl).trans (if_neg hroom)]
    exact ⟨fun i b => (hstart limit step (p.veiled i b) rfl).trans (if_neg hroom),
      h.withLoops (List.forall_mem_cons.mpr ⟨h.1, hless⟩)⟩

theorem agrees_endLoop (name : Name) (value : Float) : Agrees (endLoop name value) := by
  intro p h
  cases hfound : loopFor? name p.loops with
  | none =>
    rw [AgreesAt, endLoop_none value hfound]
    exact ⟨fun _ _ => endLoop_none (p := p.veiled _ _) value hfound, h⟩
  | some found =>
    obtain ⟨l, outer⟩ := found
    have hresumes : ∀ k ∈ l :: outer, k.resume.line.isNumbered = true :=
      fun k hk => h.2.2 k ((sublist_of_loopFor? hfound).subset hk)
    have hend := endLoop_some value hfound
    have hveiled := fun immediate breakpoint =>
      endLoop_some (p := p.veiled immediate breakpoint) value hfound
    by_cases hcontinues : l.continues (value + l.step) = true
    · exact agreesAt_of_arrive (hend.trans (if_pos hcontinues))
        (fun _ _ => (hveiled _ _).trans (if_pos hcontinues)) (h.withLoops hresumes)
        (h.withLoops hresumes) (hresumes l List.mem_cons_self) withJump_agrees
    · rw [AgreesAt, hend.trans (if_neg hcontinues)]
      exact ⟨fun _ _ => (hveiled _ _).trans (if_neg hcontinues),
        h.withLoops (List.forall_mem_cons.mp hresumes).2⟩

end Program

end LineBasic
