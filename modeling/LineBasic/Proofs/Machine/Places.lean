import LineBasic.Proofs.Machine.Reply

/-!
# The places where execution goes on

Execution goes on in the middle of a line at places that were remembered there: the returns of
calls, the bodies of loops, the point where a run was broken, and the `INPUT` that waits. A property
of places holds of all of them if it holds at the starts of lines and is kept from one statement of
a line to the next; it may then be used for what a machine can ever reach.

There is one exception. The `INPUT` that waits in the branch of an `IF` is executed again although
no statement in front of it leads there. Its place is remembered twice, also as that of a branch,
and the two belong together for as long as nothing else is executed in between.

## Main definitions

* `Program.Admits` — a place of the program has a property
* `Persists` — properties that are kept from one statement to the next
* `Machine.Guarded` — a property holds of all places that a machine remembers
* `Machine.Harmless` — a line that leaves a property with the places that have it

## Main results

* `Machine.Guarded.step` — a step keeps it
* `Machine.Guarded.submit` — so does a harmless line
* `Machine.Guarded.perform` — and so does every other operation
-/

namespace LineBasic

/-- Where a property of places holds of a place of the program, unless there is nothing to execute.
-/
def Program.Admits (Good : List Token → Nat → Prop) (p : Program) (loc : Location) : Prop :=
  ∀ tokens, p.tokensOf? loc.line = some tokens → loc.index < tokens.length → Good tokens loc.index

/-- The `INPUT` at a place, if there is one, is the statement of a branch. -/
def InputStartsBranch (tokens : List Token) (i : Nat) : Prop :=
  tokens[i]? = some (.keyword .INPUT) → StartsBranch tokens i

/-- A property of places that holds at the start of a line, and goes from the place of one statement
to that of the next. From a statement that is remembered, which may be the branch of an `IF`, it
goes to the place behind the statement. -/
structure Persists (Good : List Token → Nat → Prop) : Prop where
  start : ∀ tokens, Good tokens 0
  behind : ∀ {tokens a b}, Good tokens a → Program.Belongs tokens a b →
    tokens[b]? = some (.mark .colon) → Good tokens (b + 1)
  remembered : ∀ {tokens a b k}, Good tokens a ∨ StartsBranch tokens a →
    tokens[a]? = some (.keyword k) → k = .GOSUB ∨ k = .FOR ∨ k = .STOP →
    a < b → Inside tokens (a + 1) b → Good tokens b

namespace Program

variable {Good : List Token → Nat → Prop} {p q : Program} {loc : Location}

/-- Only the lines decide about a place. -/
theorem Admits.congr (h : p.Admits Good loc) (hlines : q.lines = p.lines)
    (himmediate : q.immediate = p.immediate) : q.Admits Good loc := by
  intro tokens htokens
  rw [tokensOf?_congr hlines himmediate] at htokens
  exact h tokens htokens

theorem admits_start (hgood : Persists Good) (hindex : loc.index = 0) : p.Admits Good loc := by
  intro tokens _ _
  rw [hindex]
  exact hgood.start tokens

/-- There is nothing to execute at the end of a line. -/
theorem admits_end {tokens : List Token} (htokens : p.tokensOf? loc.line = some tokens)
    (hindex : tokens.length ≤ loc.index) : p.Admits Good loc := by
  intro tokens' htokens' hlt
  cases htokens.symm.trans htokens'
  omega

/-- Moving to a place keeps what holds of it. -/
theorem Admits.moved {tokens : List Token} (h : p.Admits Good loc)
    (htokens : p.tokensOf? loc.line = some tokens) :
    p.Admits Good ⟨loc.line, min loc.index tokens.length⟩ := by
  intro tokens' htokens' hlt
  cases htokens.symm.trans htokens'
  change min loc.index tokens.length < tokens.length at hlt
  have hlt' : loc.index < tokens.length := by omega
  change Good tokens (min loc.index tokens.length)
  rw [Nat.min_eq_left (Nat.le_of_lt hlt')]
  exact h tokens htokens hlt'

/-- What is stored on a line is looked at anew. -/
theorem Admits.store (h : p.Admits Good loc) {n : Nat} {tokens : List Token}
    (hnew : loc.line = .numbered n → loc.index < tokens.length → Good tokens loc.index) :
    (p.store n tokens).Admits Good loc := by
  intro tokens' htokens' hlt
  cases hline : loc.line with
  | immediate =>
    rw [hline] at htokens'
    refine h tokens' ?_ hlt
    rw [hline]
    exact htokens'
  | numbered k =>
    rw [hline] at htokens'
    have hlook : (p.store n tokens).lines[k]? = some tokens' := htokens'
    by_cases hk : n = k
    · rw [hk, Program.store] at hlook
      split at hlook
      · rw [Std.ExtTreeMap.getElem?_erase_self] at hlook
        cases hlook
      · rw [Std.ExtTreeMap.getElem?_insert_self] at hlook
        cases hlook
        exact hnew (hline.trans (congrArg Line.numbered hk.symm)) hlt
    · rw [getElem?_store_of_ne p tokens hk] at hlook
      refine h tokens' ?_ hlt
      rw [hline]
      exact hlook

/-- A new immediate line does not concern the stored lines. -/
theorem Admits.setImmediate (h : p.Admits Good loc) (hnumbered : loc.line ≠ .immediate)
    (tokens : List Token) : (p.setImmediate tokens).Admits Good loc := by
  intro tokens' htokens'
  cases hline : loc.line with
  | immediate => exact absurd hline hnumbered
  | numbered k =>
    rw [hline] at htokens'
    refine h tokens' ?_
    rw [hline]
    exact htokens'

/-- A new immediate line leaves no place in an earlier one. -/
theorem resumes_setImmediate {tokens : List Token} (h : (p.setImmediate tokens).Resumes loc) :
    p.Resumes loc ∧ loc.line ≠ .immediate := by
  refine ⟨h.mono (numberedPart_sublist _ _).subset (numberedPart_sublist _ _).subset, ?_⟩
  rcases h with ⟨f, hf, rfl⟩ | ⟨l, hl, rfl⟩
  · exact isNumbered_of_mem_numberedPart hf
  · exact isNumbered_of_mem_numberedPart hl

/-- After all is forgotten, no place is remembered. -/
theorem not_resumes_nil (hcalls : p.calls = []) (hloops : p.loops = []) : ¬p.Resumes loc := by
  rintro (⟨f, hf, -⟩ | ⟨l, hl, -⟩)
  · rw [hcalls] at hf
    cases hf
  · rw [hloops] at hl
    cases hl

end Program

namespace Machine

variable {Good : List Token → Nat → Prop} {o : Options} {m m' m₁ n s : Machine} {loc : Location}

/-- A place is remembered as that of an `INPUT` that waits in the branch of an `IF`. -/
def Marks (m : Machine) (loc : Location) : Prop :=
  m.branchInput = some loc ∧
    ∃ tokens, m.program.tokensOf? loc.line = some tokens ∧
      tokens[loc.index]? = some (.keyword .INPUT)

/-- Execution may go on at a place: it has the property, or an `INPUT` waits there. -/
def MayResume (Good : List Token → Nat → Prop) (m : Machine) (loc : Location) : Prop :=
  m.program.Admits Good loc ∨ m.Marks loc

/-- The property holds wherever execution may go on. While a line is executed, the place of the
`INPUT` in a branch may be forgotten at any time, so a run that was broken there is over by then. -/
structure Guarded (Good : List Token → Nat → Prop) (m : Machine) : Prop where
  resumes : ∀ loc, m.program.Resumes loc → m.program.Admits Good loc
  numbered : ∀ loc, m.program.breakpoint = some loc → loc.line ≠ .immediate
  breakpoint : ∀ loc, m.program.breakpoint = some loc → m.MayResume Good loc
  busy : ¬m.Stopped → ∀ loc, m.program.breakpoint = some loc → m.program.Admits Good loc
  location : ¬m.Stopped → m.MayResume Good m.program.location
  branch : ∀ loc, m.branchInput = some loc → m.program.Admits InputStartsBranch loc

theorem MayResume.congr (h : m.MayResume Good loc) (hlines : m'.program.lines = m.program.lines)
    (himmediate : m'.program.immediate = m.program.immediate)
    (hbranchInput : m'.branchInput = m.branchInput) : m'.MayResume Good loc := by
  refine h.imp (fun h => h.congr hlines himmediate) ?_
  rintro ⟨hmarked, tokens, htokens, hkeyword⟩
  rw [← Program.tokensOf?_congr hlines himmediate] at htokens
  exact ⟨hbranchInput.trans hmarked, tokens, htokens, hkeyword⟩

/-- Moving to where execution may go on. -/
theorem MayResume.moved {tokens : List Token} (h : m.MayResume Good loc)
    (htokens : m.program.tokensOf? loc.line = some tokens) :
    m.MayResume Good ⟨loc.line, min loc.index tokens.length⟩ := by
  rcases h with h | h
  · exact .inl (h.moved htokens)
  · obtain ⟨hmarked, tokens', htokens', hkeyword⟩ := h
    cases htokens.symm.trans htokens'
    obtain ⟨hindex, -⟩ := List.getElem?_eq_some_iff.mp hkeyword
    rw [Nat.min_eq_left (Nat.le_of_lt hindex)]
    exact .inr ⟨hmarked, tokens, htokens, hkeyword⟩

namespace Guarded

/-- Where nothing is remembered, only the location counts. -/
theorem fresh (hresumes : ∀ loc, ¬m.program.Resumes loc) (hbreakpoint : m.program.breakpoint = none)
    (hbranchInput : m.branchInput = none)
    (hlocation : ¬m.Stopped → m.program.Admits Good m.program.location) : m.Guarded Good where
  resumes loc hloc := absurd hloc (hresumes loc)
  numbered loc hloc := by cases hbreakpoint.symm.trans hloc
  breakpoint loc hloc := by cases hbreakpoint.symm.trans hloc
  busy _ loc hloc := by cases hbreakpoint.symm.trans hloc
  location hbusy := .inl (hlocation hbusy)
  branch loc hloc := by cases hbranchInput.symm.trans hloc

/-- While the lines stay, what is remembered may be forgotten and the location may move. -/
theorem moved (h : m.Guarded Good) (hlines : m'.program.lines = m.program.lines)
    (himmediate : m'.program.immediate = m.program.immediate)
    (hresumes : ∀ loc, m'.program.Resumes loc → m.program.Resumes loc)
    (hbreakpoint : ∀ loc, m'.program.breakpoint = some loc → m.program.breakpoint = some loc)
    (hbranchInput : m'.branchInput = m.branchInput)
    (hstate : ¬m'.Stopped → ¬m.Stopped ∨ m'.program.breakpoint = none)
    (hlocation : ¬m'.Stopped → m'.MayResume Good m'.program.location) : m'.Guarded Good where
  resumes loc hloc := (h.resumes loc (hresumes loc hloc)).congr hlines himmediate
  numbered loc hloc := h.numbered loc (hbreakpoint loc hloc)
  breakpoint loc hloc :=
    (h.breakpoint loc (hbreakpoint loc hloc)).congr hlines himmediate hbranchInput
  busy hbusy loc hloc := by
    rcases hstate hbusy with hbusy | hnone
    · exact (h.busy hbusy loc (hbreakpoint loc hloc)).congr hlines himmediate
    · cases hnone.symm.trans hloc
  location := hlocation
  branch loc hloc := (h.branch loc (hbranchInput.symm.trans hloc)).congr hlines himmediate

/-- Output, log and variables play no part, and neither does the end of a run. -/
theorem congr (h : m.Guarded Good) (hprogram : m'.program = m.program)
    (hbranchInput : m'.branchInput = m.branchInput) (hstate : ¬m'.Stopped → ¬m.Stopped) :
    m'.Guarded Good := by
  refine h.moved ?_ ?_ ?_ ?_ hbranchInput (fun hbusy => .inl (hstate hbusy)) fun hbusy => ?_
  · rw [hprogram]
  · rw [hprogram]
  · rw [hprogram]
    exact fun _ hloc => hloc
  · rw [hprogram]
    exact fun _ hloc => hloc
  · rw [hprogram]
    exact (h.location (hstate hbusy)).congr (by rw [hprogram]) (by rw [hprogram]) hbranchInput

/-- Between two runs nothing is asked of the location. -/
theorem enter (h : m.Guarded Good) {t : State} (ht : (m.enter t).Stopped) :
    (m.enter t).Guarded Good :=
  h.congr (enter_program _ _) (enter_branchInput _ _) fun hbusy => absurd ht hbusy

end Guarded

theorem Active.not_stopped (h : m.Active o) : ¬m.Stopped :=
  not_not.mpr (.inl h.running)

theorem stopped_enter_idle (m : Machine) : (m.enter .idle).Stopped := by
  simp [Stopped]

/-! ### On the way to a statement -/

namespace Guarded

theorem toStatement? (h : m.Guarded Good) (hgood : Persists Good)
    (hstart : m.toStatement? = some m₁) : m₁.Guarded Good := by
  rcases toStatement?_eq_some hstart with ⟨rfl, -⟩ | ⟨line, tokens, rfl⟩
  · exact h
  · exact h.moved rfl rfl (fun _ hloc => hloc) (fun _ hloc => hloc) rfl .inl
      fun _ => .inl (Program.admits_start hgood rfl)

theorem announce (h : m.Guarded Good) : m.announce.Guarded Good := by
  refine h.congr (announce_program m) (announce_branchInput m) fun hbusy => ?_
  have hstate : m.announce.state = m.state := by
    rw [Machine.announce]
    split <;> rfl
  rwa [Stopped, hstate] at hbusy

/-- What is executed has the property, or it is the `INPUT` in a branch. -/
theorem good_or_input (h : n.Guarded Good) (hn : n.Active o) {t : Token}
    (hpeek : n.program.peek? = some t) :
    Good n.program.current n.program.location.index ∨
      t = .keyword .INPUT ∧ n.branchInput = some n.program.location ∧
        StartsBranch n.program.current n.program.location.index := by
  obtain ⟨hindex, -⟩ := List.getElem?_eq_some_iff.mp hpeek
  have hsynced := hn.program.synced
  rcases h.location hn.not_stopped with hadmits | ⟨hmarked, tokens, htokens, hkeyword⟩
  · exact .inl (hadmits _ hsynced hindex)
  · cases hsynced.symm.trans htokens
    exact .inr ⟨Option.some.inj (hpeek.symm.trans hkeyword), hmarked,
      h.branch _ hmarked _ hsynced hindex hkeyword⟩

/-- The colons in front of a statement are passed one by one. -/
theorem good_of_colons (hgood : Persists Good) {tokens : List Token} {a : Nat} (k : Nat)
    (ha : Good tokens a) (hcolons : ∀ i, a ≤ i → i < a + k → tokens[i]? = some (.mark .colon)) :
    Good tokens (a + k) := by
  induction k with
  | zero => exact ha
  | succ k ih =>
    have hcolon := hcolons (a + k) (Nat.le_add_right a k) (by omega)
    refine hgood.behind (ih fun i hai hi => hcolons i hai (by omega)) ?_ hcolon
    refine ⟨Nat.le_refl _, .inl ⟨?_, fun i t hai hi => ?_⟩⟩
    · rw [hcolon]
      nofun
    · exact absurd (Nat.lt_of_lt_of_le hi (Nat.le_of_succ_le hai)) (Nat.lt_irrefl _)

theorem atStatement (h : m.Guarded Good) (hgood : Persists Good) (hm : m.Active o) :
    m.atStatement.Guarded Good := by
  refine h.moved rfl rfl (fun _ hloc => hloc) (fun _ hloc => hloc) rfl .inl fun _ => ?_
  by_cases hend : m.program.location.index < m.program.current.length
  · have hpeek : m.program.peek? = some m.program.current[m.program.location.index] :=
      List.getElem?_eq_getElem hend
    rcases h.good_or_input hm hpeek with hplace | ⟨hkeyword, hmarked, -⟩
    · left
      intro tokens htokens hindex
      cases hm.program.synced.symm.trans htokens
      refine good_of_colons hgood _ hplace fun i hai hi => ?_
      have hlength : (m.program.rest.takeWhile (· == .mark .colon)).length ≤
          m.program.rest.length := (List.takeWhile_sublist _).length_le
      rw [Program.rest, List.length_drop] at hlength
      have hi' : i < m.program.current.length := by
        rw [Program.rest] at hi
        omega
      have hcolon := of_mem_takeWhile (f := (· == .mark .colon)) hai hi
        (List.getElem?_eq_getElem hi')
      rw [List.getElem?_eq_getElem hi', beq_iff_eq.mp hcolon]
    · rw [hkeyword] at hpeek
      have hsame : m.atStatement.program.location = m.program.location := by
        rw [Machine.atStatement, takeWhile_rest_eq_nil hpeek (by simp)]
        rfl
      right
      rw [hsame]
      exact ⟨hmarked, _, hm.program.synced, hpeek⟩
  · left
    exact Program.admits_end hm.program.synced (Nat.le_trans (Nat.le_of_not_lt hend)
      (Nat.le_add_right _ _))

end Guarded

/-! ### How a statement ends -/

namespace Guarded

/-- While a line is executed, what is remembered has the property. -/
theorem of_admits (hresumes : ∀ loc, m.program.Resumes loc → m.program.Admits Good loc)
    (hbreakpoint : ∀ loc, m.program.breakpoint = some loc →
      loc.line ≠ .immediate ∧ m.program.Admits Good loc)
    (hlocation : ¬m.Stopped → m.MayResume Good m.program.location)
    (hbranch : ∀ loc, m.branchInput = some loc → m.program.Admits InputStartsBranch loc) :
    m.Guarded Good where
  resumes := hresumes
  numbered loc hloc := (hbreakpoint loc hloc).1
  breakpoint loc hloc := .inl (hbreakpoint loc hloc).2
  busy _ loc hloc := (hbreakpoint loc hloc).2
  location := hlocation
  branch := hbranch

/-- A statement that is no `INPUT`, and no `GOTO` in the place of a `THEN`, is at a place with the
property or starts a branch. -/
theorem good_or_startsBranch (h : n.Guarded Good) (hn : n.Active o) (hs : n.LeadsTo s) {k : Keyword}
    (hpeek : s.program.peek? = some (.keyword k)) (hinput : k ≠ .INPUT) (hgoto : k ≠ .GOTO) :
    Good s.program.current s.program.location.index ∨
      StartsBranch s.program.current s.program.location.index := by
  rcases hs.startsBranch hn with rfl | hbranch | hgoto'
  · rcases h.good_or_input hn hpeek with hplace | ⟨hkeyword, -⟩
    · exact .inl hplace
    · cases hkeyword
      exact absurd rfl hinput
  · exact .inr hbranch
  · cases hpeek.symm.trans hgoto'
    exact absurd rfl hgoto

/-- A statement that is executed for another one leaves the lines alone as well. -/
theorem lines_eq (hs : n.LeadsTo s) (hn : n.Active o) (hkept : s.program.Kept m.program) :
    m.program.lines = n.program.lines ∧ m.program.immediate = n.program.immediate := by
  have hprogram := (hs.walked hn).program
  constructor
  · rw [hkept.lines, hprogram]
    rfl
  · rw [hkept.immediate, hprogram]
    rfl

/-- Whatever statement is executed, only the location and the place of a branch are left to look
at. -/
theorem of_kept (h : n.Guarded Good) (hgood : Persists Good) (hn : n.Active o) (hs : n.LeadsTo s)
    (hkept : s.program.Kept m.program)
    (hlocation : ¬m.Stopped → m.MayResume Good m.program.location)
    (hbranch : ∀ loc, m.branchInput = some loc → m.program.Admits InputStartsBranch loc) :
    m.Guarded Good := by
  have hwalked := hs.walked hn
  obtain ⟨hlines, himmediate⟩ := lines_eq hs hn hkept
  refine of_admits (fun loc hloc => ?_) (fun loc hloc => ?_) hlocation hbranch
  · rcases hkept.resumes loc hloc with hold | hopens
    · exact (h.resumes loc ((hwalked.resumes_iff loc).mp hold)).congr hlines himmediate
    · intro tokens htokens _
      have hsynced := (hn.walked hwalked).program.synced
      rw [Program.tokensOf?_congr hkept.lines hkept.immediate, hopens.line] at htokens
      cases hsynced.symm.trans htokens
      rcases hopens.keyword with hpeek | hpeek
      · exact hgood.remembered (h.good_or_startsBranch hn hs hpeek nofun nofun) hpeek (.inl rfl)
          hopens.behind hopens.inside
      · exact hgood.remembered (h.good_or_startsBranch hn hs hpeek nofun nofun) hpeek
          (.inr (.inl rfl)) hopens.behind hopens.inside
  · have hbreakpoint : n.program.breakpoint = some loc := by
      rw [← hloc, hkept.breakpoint, hwalked.program]
      rfl
    exact ⟨h.numbered loc hbreakpoint,
      (h.busy hn.not_stopped loc hbreakpoint).congr hlines himmediate⟩

/-- Wherever a statement with the property goes, the property holds. -/
theorem admits_of_lands (h : n.Guarded Good) (hgood : Persists Good) (hm : m.Active o)
    (hlines : m.program.lines = n.program.lines)
    (himmediate : m.program.immediate = n.program.immediate)
    (hlands : n.program.Lands m.program)
    (hplace : n.program.location.index < n.program.current.length →
      Good n.program.current n.program.location.index) :
    m.program.Admits Good m.program.location := by
  have hsynced := hm.program.synced
  cases hlands with
  | behind b line current belongs colon index =>
    intro tokens htokens _
    cases hsynced.symm.trans htokens
    obtain ⟨hb, -⟩ := List.getElem?_eq_some_iff.mp colon
    rw [current, index]
    exact hgood.behind (hplace (Nat.lt_of_le_of_lt belongs.1 hb)) belongs colon
  | ended line current index =>
    exact Program.admits_end hsynced
      (Nat.le_of_eq ((congrArg List.length current).trans index.symm))
  | start index => exact Program.admits_start hgood index
  | back loc resumes location =>
    have htokens : m.program.tokensOf? loc.line = some m.program.current := by
      rw [Program.Synced, location] at hsynced
      exact hsynced
    rw [location]
    exact ((h.resumes loc resumes).congr hlines himmediate).moved htokens

theorem executed (h : n.Guarded Good) (hgood : Persists Good) (hn : n.Active o) (hm : m.Active o)
    (hexecuted : n.Executed m) : m.Guarded Good := by
  obtain ⟨hinput, ⟨s, hs, hkept⟩, hlands, -, hsame⟩ := hexecuted
  obtain ⟨hlines, himmediate⟩ := lines_eq hs hn hkept
  refine h.of_kept hgood hn hs hkept (fun _ => .inl ?_) fun loc hloc =>
    (h.branch loc (hsame.symm.trans hloc)).congr hlines himmediate
  refine h.admits_of_lands hgood hm hlines himmediate hlands fun hindex => ?_
  have hpeek : n.program.peek? = some n.program.current[n.program.location.index] :=
    List.getElem?_eq_getElem hindex
  rcases h.good_or_input hn hpeek with hplace | ⟨hkeyword, -⟩
  · exact hplace
  · exact absurd (hpeek.trans (congrArg some hkeyword)) hinput

theorem accepted (h : n.Guarded Good) (hgood : Persists Good) (hn : n.Active o) (hm : m.Active o)
    (haccepted : n.Accepted m) : m.Guarded Good := by
  obtain ⟨hkept, hlands, -, hcurrent, -, hrest⟩ := haccepted
  have hsynced := hm.program.synced
  rcases hrest with ⟨-, hforgotten, hend⟩ | ⟨hunmarked, hsame, -⟩
  · refine h.of_kept hgood hn (.here n) hkept (fun _ => .inl ?_) fun loc hloc => ?_
    · exact Program.admits_end hsynced
        (Nat.le_of_eq ((congrArg List.length hcurrent).trans hend.symm))
    · cases hforgotten.symm.trans hloc
  · refine h.of_kept hgood hn (.here n) hkept (fun _ => .inl ?_) fun loc hloc =>
      (h.branch loc (hsame.symm.trans hloc)).congr hkept.lines hkept.immediate
    refine h.admits_of_lands hgood hm hkept.lines hkept.immediate hlands fun hindex => ?_
    rcases h.good_or_input hn (List.getElem?_eq_getElem hindex) with hplace | ⟨-, hmarked, -⟩
    · exact hplace
    · exact absurd hmarked hunmarked

/-- Where a run is broken, it may go on. -/
theorem broken (h : m.Guarded Good) (hplace : m.MayResume Good m.program.location)
    (hprogram : m'.program = m.program.interrupt) (hbranchInput : m'.branchInput = m.branchInput)
    (hstopped : m'.Stopped) : m'.Guarded Good := by
  rw [Program.interrupt] at hprogram
  split at hprogram
  · next hnumbered =>
    have hbreakpoint : ∀ loc, m'.program.breakpoint = some loc → m.program.location = loc := by
      rw [hprogram]
      exact fun loc hloc => Option.some.inj hloc
    constructor
    · intro loc hloc
      rw [hprogram] at hloc ⊢
      exact h.resumes loc hloc
    · intro loc hloc hline
      rw [hbreakpoint loc hloc, hline] at hnumbered
      cases hnumbered
    · intro loc hloc
      rw [← hbreakpoint loc hloc]
      exact hplace.congr (by rw [hprogram]) (by rw [hprogram]) hbranchInput
    · exact fun hbusy => absurd hstopped hbusy
    · exact fun hbusy => absurd hstopped hbusy
    · intro loc hloc
      rw [hprogram]
      exact h.branch loc (hbranchInput.symm.trans hloc)
  · exact h.congr hprogram hbranchInput fun hbusy => absurd hstopped hbusy

/-- Behind a `STOP` a run may go on. -/
theorem stop (h : n.Guarded Good) (hgood : Persists Good) (hn : n.Active o)
    (hhalts : n.Halts (.signal .stop) m) : (m.markBreak.enter .idle).Guarded Good := by
  obtain ⟨s, hs, hstop, hprogram, -, hsame⟩ := hhalts
  have hkept : s.program.Kept m.program := by
    rw [hprogram]
    exact (Program.Kept.refl _).atIndex _
  obtain ⟨hlines, himmediate⟩ := lines_eq hs hn hkept
  have hplace : m.MayResume Good m.program.location := by
    left
    intro tokens htokens _
    have hsynced := (hn.walked (hs.walked hn)).program.synced
    rw [hprogram] at htokens ⊢
    cases hsynced.symm.trans htokens
    exact hgood.remembered (h.good_or_startsBranch hn hs hstop nofun nofun) hstop
      (.inr (.inr rfl)) (Nat.lt_succ_self _) (.refl _ _)
  have hguarded : m.Guarded Good := h.of_kept hgood hn hs hkept (fun _ => hplace) fun loc hloc =>
    (h.branch loc (hsame.symm.trans hloc)).congr hlines himmediate
  exact hguarded.broken hplace (enter_program _ _) (by simp) (stopped_enter_idle _)

/-- At an `INPUT` that waits, a run may go on. -/
theorem await (h : n.Guarded Good) (hgood : Persists Good) (hn : n.Active o)
    (hhalts : n.Halts (.signal .awaitInput) m) : (m.enter .awaitingInput).Guarded Good := by
  obtain ⟨s, hs, hsuspended, hplace⟩ := hhalts
  have hprogram := hsuspended.program
  have hkept : s.program.Kept (m.enter .awaitingInput).program := by
    rw [enter_program, hprogram]
    exact .refl _
  obtain ⟨hlines, himmediate⟩ := lines_eq hs hn hkept
  have hsynced := (hn.walked (hs.walked hn)).program.synced
  rcases hplace with ⟨rfl, hsame⟩ | ⟨hstarts, hmarked⟩
  · have hsame' : (m.enter .awaitingInput).branchInput = s.branchInput := by
      rw [enter_branchInput, hsame]
    refine h.of_kept hgood hn hs hkept (fun _ => ?_) fun loc hloc =>
      (h.branch loc (hsame'.symm.trans hloc)).congr hlines himmediate
    rw [enter_program, hprogram]
    exact (h.location hn.not_stopped).congr hlines himmediate hsame'
  · refine h.of_kept hgood hn hs hkept (fun _ => ?_) fun loc hloc => ?_
    · rw [enter_program, hprogram]
      refine .inr ⟨(enter_branchInput _ _).trans hmarked, _, ?_, hsuspended.keyword⟩
      rw [enter_program, hprogram]
      exact hsynced
    · rw [enter_branchInput, hmarked] at hloc
      cases hloc
      intro tokens htokens _
      rw [enter_program, hprogram] at htokens
      cases hsynced.symm.trans htokens
      exact fun _ => hstarts

/-- A statement that ends normally keeps the property, with or without a reply. -/
theorem execute (h : m.Guarded Good) (hgood : Persists Good) (hm : Reachable o m)
    (hrunning : m.state = .running) (hstart : m.toStatement? = some m₁)
    (hend : Machine.execute m₁.announce = .ok () m') : m'.Guarded Good := by
  have hactive := (hm.sound.active hrunning).toStatement? hstart |>.announce
  have hannounced := (h.toStatement? hgood hstart).announce
  have hm' : m'.Active o := by
    have hsafe := safe_execute m₁.announce hactive
    rw [hend] at hsafe
    exact hsafe
  cases hreply : m.reply with
  | none =>
    have hnone : m₁.announce.reply = none := by
      obtain ⟨p, rfl⟩ := exists_of_toStatement? hstart
      rw [announce_reply]
      exact hreply
    have hexecuted := concludes_execute hactive hnone
    rw [hend] at hexecuted
    exact (hannounced.atStatement hgood hactive).executed hgood (active_atStatement hactive) hm'
      hexecuted
  | some r =>
    obtain ⟨rfl, -, haccepted⟩ := hm.inputSound.execute_reply hm.sound hreply hstart
    rw [hend] at haccepted
    exact hannounced.accepted hgood hactive hm' haccepted

/-- A step keeps the property wherever execution may go on. -/
theorem step (h : m.Guarded Good) (hgood : Persists Good) (hm : Reachable o m) :
    m.step.2.Guarded Good := by
  by_cases hrunning : m.state = .running
  · have hstepped := stepped hrunning
    generalize m.step = r at hstepped ⊢
    have hstatement : ∀ {m₁}, m.toStatement? = some m₁ →
        m₁.announce.atStatement.Guarded Good ∧ m₁.announce.atStatement.Active o := by
      intro m₁ hstart
      have hactive := (hm.sound.active hrunning).toStatement? hstart |>.announce
      exact ⟨(h.toStatement? hgood hstart).announce.atStatement hgood hactive,
        active_atStatement hactive⟩
    have hhalts : ∀ {m₁ m₂ e}, m.toStatement? = some m₁ →
        Machine.execute m₁.announce = .error e m₂ →
        m₁.announce.atStatement.Halts e m₂ := fun hstart hend =>
      (hm.inputSound.concludes_execute hm.sound hrunning hstart).of_error hend
    cases hstepped with
    | through hstart => exact h.enter (stopped_enter_idle m)
    | next hstart hend hnext =>
      exact (h.execute hgood hm hrunning hstart hend).toStatement? hgood hnext
    | last hstart hend hnext =>
      exact (h.execute hgood hm hrunning hstart hend).enter (stopped_enter_idle _)
    | @finish m₁ m₂ hstart hend =>
      obtain ⟨hn, hactive⟩ := hstatement hstart
      obtain ⟨s, hs, hprogram, -, hsame⟩ := hhalts hstart hend
      have hkept : s.program.Kept (m₂.enter .idle).program := by
        rw [enter_program, hprogram]
        exact (Program.Kept.refl _).atIndex _
      obtain ⟨hlines, himmediate⟩ := lines_eq hs hactive hkept
      refine hn.of_kept hgood hactive hs hkept
        (fun hbusy => absurd (stopped_enter_idle _) hbusy) fun loc hloc => ?_
      rw [enter_branchInput, hsame] at hloc
      exact (hn.branch loc hloc).congr hlines himmediate
    | stop hstart hend =>
      obtain ⟨hn, hactive⟩ := hstatement hstart
      exact hn.stop hgood hactive (hhalts hstart hend)
    | await hstart hend =>
      obtain ⟨hn, hactive⟩ := hstatement hstart
      exact hn.await hgood hactive (hhalts hstart hend)
    | fault line hstart hend =>
      -- a fault leaves nothing to go back to
      refine fresh (fun loc => ?_) ?_ (abort_branchInput _ _ _) fun hbusy => ?_
      · rw [abort_program]
        exact Program.not_resumes_nil rfl rfl
      · rw [abort_program]
        rfl
      · exact absurd (by simp [Stopped]) hbusy
  · rw [Machine.step, if_pos hrunning]
    exact h

end Guarded

/-! ### The other operations -/

/-- The tokens of a line that is submitted and is no command. -/
def Spells (line : Bytes) (tokens : List Token) : Prop :=
  Command.read? (Bytes.trimLineEnds line) = none ∧
    Token.read (Bytes.trimLineEnds line) = .ok tokens

/-- A submitted line leaves the property with the places that have it. A line that is stored must
have it at the places on the line that are remembered, and an `INPUT` at the place of a branch must
be in a branch there. A line that is executed must not come between an `INPUT` in a branch and its
reply. -/
structure Harmless (Good : List Token → Nat → Prop) (m : Machine) (line : Bytes) : Prop where
  stored : ∀ {tokens n rest}, Spells line tokens → numbered? tokens = some (n, rest) →
    ∀ i, i < rest.length → (m.program.Resumes ⟨.numbered n, i⟩ → Good rest i) ∧
      (m.branchInput = some ⟨.numbered n, i⟩ → InputStartsBranch rest i)
  executed : ∀ {tokens}, Spells line tokens → numbered? tokens = none →
    ∀ loc, m.program.breakpoint = some loc → m.program.Admits Good loc

namespace Guarded

theorem runCommand (h : m.Guarded Good) (hgood : Persists Good) (hstopped : m.Stopped)
    (c : Command) : (m.runCommand c).2.Guarded Good := by
  cases commanded hstopped c with
  | started hprogram hstate hreply hbranchInput =>
    obtain ⟨n, -, hmove⟩ := Option.bind_eq_some_iff.mp hprogram
    obtain ⟨tokens, heq⟩ := Program.moveTo?_eq_some hmove
    refine fresh (fun loc => ?_) ?_ hbranchInput fun _ => Program.admits_start hgood ?_
    · rw [heq]
      exact Program.not_resumes_nil rfl rfl
    · rw [heq]
      rfl
    · rw [heq]
      exact Nat.zero_min _
  | cleared hprogram hstate hreply hbranchInput =>
    refine fresh (fun loc => ?_) ?_ hbranchInput fun hbusy => absurd hstate hbusy
    · rw [hprogram]
      exact Program.not_resumes_nil rfl rfl
    · rw [hprogram]
      rfl
  -- a `CONT` goes to the breakpoint, which is a place where a run may go on
  | continued hprogram hstate hreply hbranchInput =>
    obtain ⟨loc, tokens, hbreak, htokens, hmoved⟩ := Program.continueRun_eq_ok hprogram
    have hlines : (m.runCommand c).2.program.lines = m.program.lines := by rw [hmoved]
    have himmediate : (m.runCommand c).2.program.immediate = m.program.immediate := by rw [hmoved]
    refine h.moved hlines himmediate ?_ ?_ hbranchInput (fun _ => .inr (by rw [hmoved])) fun _ => ?_
    · rw [hmoved]
      exact fun _ hloc => hloc
    · rw [hmoved]
      nofun
    · have hlocation : (m.runCommand c).2.program.location =
          ⟨loc.line, min loc.index tokens.length⟩ := by rw [hmoved]
      rw [hlocation]
      exact ((h.breakpoint loc hbreak).moved htokens).congr hlines himmediate hbranchInput
  | idle hprogram hstate hreply hbranchInput =>
    rcases hprogram with hprogram | hprogram
    · exact h.congr hprogram hbranchInput fun hbusy => absurd hstate hbusy
    · refine h.moved ?_ ?_ ?_ ?_ hbranchInput (fun hbusy => absurd hstate hbusy)
        fun hbusy => absurd hstate hbusy
      · rw [hprogram]
        rfl
      · rw [hprogram]
        rfl
      · rw [hprogram]
        exact fun _ hloc => hloc
      · rw [hprogram]
        nofun

/-- Whatever was remembered before, a `RUN` forgets it. -/
theorem run (hgood : Persists Good) (m : Machine) : (m.runCommand .run).2.Guarded Good := by
  rw [Machine.runCommand.eq_def]
  dsimp only
  split
  · next p hfirst =>
    obtain ⟨n, -, hmove⟩ := Option.bind_eq_some_iff.mp hfirst
    obtain ⟨tokens, rfl⟩ := Program.moveTo?_eq_some hmove
    refine fresh (fun _ => Program.not_resumes_nil ?_ ?_) ?_ (enter_branchInput _ _) fun _ =>
      Program.admits_start hgood ?_
    all_goals rw [enter_program]
    · rfl
    · rfl
    · rfl
    · exact Nat.zero_min _
  · refine fresh (fun _ => Program.not_resumes_nil ?_ ?_) ?_ (enter_branchInput _ _) fun hbusy =>
      absurd (stopped_enter_idle _) hbusy
    all_goals
      rw [enter_program]
      rfl

theorem submit (h : m.Guarded Good) (hgood : Persists Good) {line : Bytes}
    (hline : m.Harmless Good line) : (m.submit line).2.Guarded Good := by
  have hsubmitted := submitted m line
  generalize m.submit line = r at hsubmitted ⊢
  cases hsubmitted with
  | refused fault hbusy => exact h
  | command hstopped hcommand => exact h.runCommand hgood hstopped _
  | @stored tokens rest n hstopped hcommand hread hnumbered =>
    have hnew := hline.stored ⟨hcommand, hread⟩ hnumbered
    have hstored : (m.storeLine n rest).Guarded Good := by
      -- a run that was broken cannot go on after an edit
      refine of_admits (fun loc hloc => (h.resumes loc hloc).store fun hat hindex => ?_) ?_
        (fun hbusy => absurd hstopped hbusy) fun loc hloc => (h.branch loc hloc).store
          fun hat hindex => ?_
      · obtain ⟨line, i⟩ := loc
        cases hat
        exact (hnew i hindex).1 hloc
      · nofun
      · obtain ⟨line, i⟩ := loc
        cases hat
        exact (hnew i hindex).2 hloc
    exact hstored.enter (stopped_enter_idle _)
  | @executed tokens hstopped hcommand hread hnumbered =>
    have hbroken := hline.executed ⟨hcommand, hread⟩ hnumbered
    have hprogram : (m.startImmediate tokens).program = m.program.setImmediate tokens :=
      enter_program _ _
    have hbranchInput : (m.startImmediate tokens).branchInput =
        m.branchInput.filter (·.line.isNumbered) := enter_branchInput _ _
    refine of_admits ?_ ?_ (fun _ => .inl ?_) ?_
    · rw [hprogram]
      intro loc hloc
      obtain ⟨hold, hat⟩ := Program.resumes_setImmediate hloc
      exact (h.resumes loc hold).setImmediate hat tokens
    · rw [hprogram]
      intro loc hloc
      exact ⟨h.numbered loc hloc, (hbroken loc hloc).setImmediate (h.numbered loc hloc) tokens⟩
    · rw [hprogram]
      exact Program.admits_start hgood rfl
    · rw [hprogram, hbranchInput]
      intro loc hloc
      obtain ⟨hold, hat⟩ := Option.filter_eq_some_iff.mp hloc
      refine (h.branch loc hold).setImmediate (fun himmediate => ?_) tokens
      rw [himmediate] at hat
      cases hat
  | dropped fault hstopped => exact h.enter (stopped_enter_idle _)

theorem provideInput (h : m.Guarded Good) (text : Bytes) :
    ((m.provideInput? text).getD m).Guarded Good := by
  rw [provideInput?]
  split
  · next hwaiting =>
    refine h.congr (enter_program _ _) (enter_branchInput _ _) fun _ => ?_
    exact not_not.mpr (.inr hwaiting)
  · exact h

theorem interrupt (h : m.Guarded Good) : m.interrupt.Guarded Good := by
  rw [Machine.interrupt]
  split
  · next hbusy =>
    exact h.broken (h.location (not_not.mpr hbusy)) (enter_program _ _) (enter_branchInput _ _)
      (stopped_enter_idle _)
  · exact h

/-- Every operation keeps the property wherever execution may go on, if it is not a line that takes
it away. -/
theorem perform (h : m.Guarded Good) (hgood : Persists Good) (hm : Reachable o m) {op : Operation}
    (hop : ∀ line, op = .submit line → m.Harmless Good line) : (m.perform op).Guarded Good := by
  cases op with
  | submit line => exact h.submit hgood (hop line rfl)
  | step => exact h.step hgood hm
  | provideInput text => exact h.provideInput text
  | interrupt => exact h.interrupt
  | runSteps limit cancelAfter =>
    refine (runSteps_induction (P := fun m => Reachable o m ∧ m.Guarded Good) ?_ ?_
      limit cancelAfter ⟨hm, h⟩).2
    · exact fun m h => ⟨h.1.perform .interrupt, h.2.interrupt⟩
    · exact fun m h => ⟨h.1.perform .step, h.2.step hgood h.1⟩
  | takeOutput => exact h.congr rfl rfl fun hbusy => hbusy

end Guarded

/-- A new machine has nothing to go on with. -/
theorem guarded_new (o : Options) : (new o).Guarded Good :=
  .fresh (fun _ => Program.not_resumes_nil rfl rfl) rfl rfl fun hbusy =>
    absurd (by simp [Stopped, new]) hbusy

end Machine

end LineBasic
