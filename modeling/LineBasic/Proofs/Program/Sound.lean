import LineBasic.Proofs.Expr.Fault
import LineBasic.Proofs.Machine.Call

/-!
# What every program state satisfies

However lines are edited and wherever control goes, the stored lines are not empty, the location is
on its line, and the pending calls and loops are within their bounds. A loop is identified by its
variable, which is numeric. Calls and loops may outlive the numbered line that they point into, but
not the immediate line.

While a line is executed, the tokens that are executed are moreover those of the line. Transfer of
control keeps all this; it is shown here for one action at a time.

## Main definitions

* `Program.Sound` — what holds of a program at all times
* `Program.Live` — what moreover holds of it while a line is executed

## Main results

* `Program.Sound.moveTo?`, `Program.Sound.withCalls`, `Program.Sound.withLoops` — the ways in which
  a program changes while it runs
* `Program.exists_kept`, `Program.endLoop_rule` — the beginning and the end of a round, for all
  properties
* `Program.keeps_goTo`, `Program.keeps_gosub`, `Program.keeps_returnFromGosub`,
  `Program.keeps_startLoop`, `Program.keeps_endLoop`, `Program.keeps_nextDatum` — transfer of
  control, and reading data
-/

namespace LineBasic.Program

/-- A location in the immediate line is within it. -/
def Covers (p : Program) (loc : Location) : Prop :=
  loc.line = .immediate → loc.index ≤ p.immediate.length

/-- What holds of the program of a machine that was started with given options. -/
structure Sound (o : Options) (p : Program) : Prop where
  maxCalls : p.maxCalls = o.normalize.maxCalls.toNat
  maxLoops : p.maxLoops = o.normalize.maxLoops.toNat
  lines : ∀ (n : Nat) (tokens : List Token), p.lines[n]? = some tokens → tokens ≠ []
  index : p.location.index ≤ p.current.length
  calls : p.calls.length ≤ p.maxCalls
  loops : p.loops.length ≤ p.maxLoops
  loopNames : (p.loops.map Loop.name).Nodup
  numeric : ∀ l ∈ p.loops, l.name.isString = false
  gosubs : ∀ f ∈ p.calls, f.isFunction = false
  returns : ∀ f ∈ p.calls, p.Covers f.ret
  resumes : ∀ l ∈ p.loops, p.Covers l.resume

/-- What moreover holds while a line is executed; the stored lines are then those of `L`. -/
structure Live (o : Options) (L : Std.ExtTreeMap Nat (List Token)) (p : Program) : Prop extends
    Sound o p where
  synced : p.Synced
  stored : p.lines = L

variable {α : Type} {o : Options} {L : Std.ExtTreeMap Nat (List Token)} {p p' : Program}

namespace Sound

theorem moveTo? (h : p.Sound o) {loc : Location} (hmove : p.moveTo? loc = some p') :
    p'.Sound o := by
  obtain ⟨tokens, -, rfl⟩ := Option.map_eq_some_iff.mp hmove
  exact { h with index := Nat.min_le_right _ _ }

/-- Dropping some of the calls. -/
theorem withCalls (h : p.Sound o) {calls : List Frame} (hcalls : calls.Sublist p.calls) :
    { p with calls }.Sound o :=
  { h with
    calls := Nat.le_trans hcalls.length_le h.calls
    gosubs := fun f hf => h.gosubs f (hcalls.subset hf)
    returns := fun f hf => h.returns f (hcalls.subset hf) }

/-- Dropping some of the loops. -/
theorem withLoops (h : p.Sound o) {loops : List Loop} (hloops : loops.Sublist p.loops) :
    { p with loops }.Sound o :=
  { h with
    loops := Nat.le_trans hloops.length_le h.loops
    loopNames := h.loopNames.sublist (hloops.map _)
    numeric := fun l hl => h.numeric l (hloops.subset hl)
    resumes := fun l hl => h.resumes l (hloops.subset hl) }

end Sound

namespace Live

/-- Moving along the line. -/
theorem atIndex (h : p.Live o L) {i : Nat} (hi : i ≤ p.current.length) : (p.atIndex i).Live o L :=
  { h with index := hi }

/-- Moving to any line that exists. -/
theorem moveTo? (h : p.Live o L) {loc : Location} (hmove : p.moveTo? loc = some p') :
    p'.Live o L := by
  refine ⟨h.toSound.moveTo? hmove, synced_of_moveTo? hmove, ?_⟩
  obtain ⟨tokens, -, rfl⟩ := Option.map_eq_some_iff.mp hmove
  exact h.stored

/-- The location of a running program is on its line. -/
theorem covers_location (h : p.Live o L) : p.Covers p.location := by
  intro hline
  have hsynced := h.synced
  rw [Synced, hline] at hsynced
  have hindex := h.index
  rw [← Option.some.inj hsynced] at hindex
  exact hindex

end Live

/-! ### Jumps and subroutines -/

/-- Whether control was transferred plays no part. -/
theorem Live.withJumped (h : p.Live o L) (jumped : Bool) : { p with jumped }.Live o L :=
  { h with synced := h.synced }

theorem keeps_goTo (n : Nat) : Keeps (Live o L) Cause.Ordinary (goTo n) := by
  intro p hp
  rw [goTo]
  cases hmove : p.moveTo? (Line.numbered n).start with
  | some p' => exact (hp.moveTo? hmove).withJumped true
  | none => exact ⟨hp, nofun⟩

/-- A pending `GOSUB` returns to the place behind it. -/
theorem Live.withGosub (h : p.Live o L) (hroom : ¬p.maxCalls ≤ p.calls.length) :
    { p with calls := .gosub p.location :: p.calls }.Live o L :=
  { h with
    calls := Nat.not_le.mp hroom
    gosubs := List.forall_mem_cons.mpr ⟨rfl, h.gosubs⟩
    returns := List.forall_mem_cons.mpr ⟨h.covers_location, h.returns⟩ }

theorem keeps_gosub (n : Nat) : Keeps (Live o L) Cause.Ordinary (gosub n) := by
  intro p hp
  rw [gosub, get_bind_apply]
  split
  · exact ⟨hp, by rintro ⟨⟩⟩
  · simp only [bind_apply, pushFrame]
    by_cases hroom : p.maxCalls ≤ p.calls.length
    · rw [if_pos hroom]
      exact ⟨hp, by rintro ⟨⟩⟩
    · rw [if_neg hroom]
      exact keeps_goTo n _ (hp.withGosub hroom)

theorem keeps_returnFromGosub : Keeps (Live o L) Cause.Ordinary returnFromGosub := by
  intro p hp
  rw [returnFromGosub]
  split
  · next ret calls hcalls =>
    have hrest : { p with calls }.Live o L :=
      ⟨hp.withCalls (hcalls ▸ List.sublist_cons_self _ _), hp.synced, hp.stored⟩
    dsimp only
    split
    · next p' hmove => exact (hrest.moveTo? hmove).withJumped true
    · exact ⟨hrest, nofun⟩
  · exact ⟨hp, nofun⟩

/-! ### Loops -/

/-- A loop that is found is one of the loops, and those outside it come after it. -/
theorem suffix_of_splitAtLoop? {name : Name} {loops outer : List Loop} {l : Loop}
    (h : splitAtLoop? name loops = some (l, outer)) : l.name = name ∧ l :: outer <:+ loops := by
  induction loops with
  | nil => cases h
  | cons k loops ih =>
    rw [splitAtLoop?] at h
    split at h
    · next hname =>
      cases h
      exact ⟨hname, List.suffix_rfl⟩
    · obtain ⟨hname, hsuffix⟩ := ih h
      exact ⟨hname, hsuffix.trans (List.suffix_cons _ _)⟩

theorem ne_of_splitAtLoop? {name : Name} {loops : List Loop}
    (h : splitAtLoop? name loops = none) : name ∉ loops.map Loop.name := by
  induction loops with
  | nil => exact List.not_mem_nil
  | cons k loops ih =>
    rw [splitAtLoop?] at h
    split at h
    · cases h
    · next hname =>
      rw [List.map_cons, List.mem_cons, not_or]
      exact ⟨fun heq => hname heq.symm, ih h⟩

/-- A `FOR` keeps some of the loops, none of them over its variable, and puts its own on top if
there is room. -/
theorem exists_kept (name : Name) (p : Program) :
    ∃ kept : List Loop, kept.Sublist p.loops ∧
      ((p.loops.map Loop.name).Nodup → name ∉ kept.map Loop.name) ∧
      ∀ (limit step : Float) (q : Program), q.loops = p.loops →
        startLoop name limit step q =
          if q.maxLoops ≤ kept.length then .error .stackOverflow { q with loops := kept }
          else .ok () { q with loops := ⟨q.location, name, limit, step⟩ :: kept } := by
  cases hsplit : splitAtLoop? name p.loops with
  | none =>
    refine ⟨p.loops, .refl _, fun _ => ne_of_splitAtLoop? hsplit, fun _ _ q hq => ?_⟩
    rw [startLoop, hq, hsplit]
  | some found =>
    obtain ⟨l, outer⟩ := found
    obtain ⟨rfl, hsuffix⟩ := suffix_of_splitAtLoop? hsplit
    refine ⟨outer, (List.sublist_cons_self _ _).trans hsuffix.sublist, fun hnodup => ?_,
      fun _ _ q hq => ?_⟩
    · -- the loop found is the only one over its variable
      have hnodup := hnodup.sublist (hsuffix.sublist.map Loop.name)
      rw [List.map_cons, List.nodup_cons] at hnodup
      exact hnodup.1
    · rw [startLoop, hq, hsplit]

theorem keeps_startLoop {name : Name} (hname : name.isString = false) (limit step : Float) :
    Keeps (Live o L) Cause.Ordinary (startLoop name limit step) := by
  intro p hp
  obtain ⟨kept, hkept, hfresh, hstart⟩ := exists_kept name p
  have hless : { p with loops := kept }.Live o L := ⟨hp.withLoops hkept, hp.synced, hp.stored⟩
  rw [hstart limit step p rfl]
  split
  · exact ⟨hless, nofun⟩
  · next hroom =>
    exact
      { hless with
        loops := Nat.not_le.mp hroom
        loopNames := List.nodup_cons.mpr ⟨hfresh hp.loopNames, hless.loopNames⟩
        numeric := List.forall_mem_cons.mpr ⟨hname, hless.numeric⟩
        resumes := List.forall_mem_cons.mpr ⟨hp.covers_location, hless.resumes⟩ }

/-- Goes to a place at the end of an action, and fails if its line is gone. -/
def arrive (p : Program) (loc : Location) (found : Program → Program) (lost : Program) (a : α)
    (c : Cause) : EStateM.Result Cause Program α :=
  match p.moveTo? loc with
  | some q => .ok a (found q)
  | none => .error c lost

/-- A statement has transferred control. -/
def withJump (p : Program) : Program :=
  { p with jumped := true }

/-- The loop that a `NEXT` ends, and the loops outside it. -/
def loopFor? (name : Name) (loops : List Loop) : Option (Loop × List Loop) :=
  match name, loops with
  | [], l :: outer => some (l, outer)
  | [], [] => none
  | _, loops => splitAtLoop? name loops

theorem sublist_of_loopFor? {name : Name} {loops outer : List Loop} {l : Loop}
    (h : loopFor? name loops = some (l, outer)) : (l :: outer).Sublist loops := by
  unfold loopFor? at h
  split at h
  · cases h
    exact .refl _
  · cases h
  · exact (suffix_of_splitAtLoop? h).2.sublist

/-- The innermost loop is found under its name. -/
theorem loopFor?_self (l : Loop) (outer : List Loop) :
    loopFor? l.name (l :: outer) = some (l, outer) := by
  cases hname : l.name with
  | nil => rfl
  | cons c name => exact if_pos hname

/-- Which loop goes round is found first. -/
theorem endLoop_eq (name : Name) (value : Float) :
    endLoop name value p = (loopFor? name p.loops).elim (.error .nextWithoutFor p) fun found =>
      if found.1.continues (value + found.1.step) then
        { p with loops := found.1 :: found.2 }.arrive found.1.resume withJump
          { p with loops := found.1 :: found.2 } (value + found.1.step) .undefinedStatement
      else .ok (value + found.1.step) { p with loops := found.2 } := by
  unfold endLoop
  cases name with
  | nil =>
    cases p.loops with
    | nil => rfl
    | cons l outer => rfl
  | cons b name =>
    dsimp only [loopFor?]
    cases splitAtLoop? (b :: name) p.loops with
    | none => rfl
    | some found => rfl

theorem endLoop_none {name : Name} (value : Float) (h : loopFor? name p.loops = none) :
    endLoop name value p = .error .nextWithoutFor p := by
  rw [endLoop_eq, h]
  rfl

theorem endLoop_some {name : Name} (value : Float) {l : Loop} {outer : List Loop}
    (h : loopFor? name p.loops = some (l, outer)) :
    endLoop name value p =
      if l.continues (value + l.step) then
        { p with loops := l :: outer }.arrive l.resume withJump { p with loops := l :: outer }
          (value + l.step) .undefinedStatement
      else .ok (value + l.step) { p with loops := outer } := by
  rw [endLoop_eq, h]
  rfl

/-- A `NEXT` finds no loop, ends one, or goes back to its body, which may be gone. -/
theorem endLoop_rule {Q : Float → Program → Prop} {E : Cause → Program → Prop} (name : Name)
    (value : Float) (hnone : E .nextWithoutFor p)
    (hover : ∀ l outer, (l :: outer).Sublist p.loops →
      Q (value + l.step) { p with loops := outer })
    (hback : ∀ l outer, (l :: outer).Sublist p.loops → ∀ q,
      { p with loops := l :: outer }.moveTo? l.resume = some q →
        Q (value + l.step) { q with jumped := true })
    (hlost : ∀ l outer, (l :: outer).Sublist p.loops →
      E .undefinedStatement { p with loops := l :: outer }) :
    Concludes Q E (endLoop name value p) := by
  cases hfound : loopFor? name p.loops with
  | none =>
    rw [endLoop_none value hfound]
    exact hnone
  | some found =>
    obtain ⟨l, outer⟩ := found
    have hloops := sublist_of_loopFor? hfound
    rw [endLoop_some value hfound, arrive]
    split
    · cases hmove : ({ p with loops := l :: outer } : Program).moveTo? l.resume with
      | some q => exact hback l outer hloops q hmove
      | none => exact hlost l outer hloops
    · exact hover l outer hloops

theorem keeps_endLoop (name : Name) (value : Float) :
    Keeps (Live o L) Cause.Ordinary (endLoop name value) := by
  intro p hp
  have hlive : ∀ {loops : List Loop}, loops.Sublist p.loops → { p with loops }.Live o L :=
    fun h => ⟨hp.withLoops h, hp.synced, hp.stored⟩
  exact endLoop_rule name value ⟨hp, nofun⟩
    (fun _ _ h => hlive ((List.sublist_cons_self _ _).trans h))
    (fun _ _ h _ hmove => ((hlive h).moveTo? hmove).withJumped true)
    fun _ _ h => ⟨hlive h, nofun⟩

theorem keeps_nextDatum : Keeps (Live o L) Cause.Ordinary nextDatum := by
  intro p hp
  rw [nextDatum]
  split
  · exact { hp with synced := hp.synced }
  · exact ⟨hp, nofun⟩

/-! ### Between two runs -/

/-- A stack is cut off at the first entry that points into the immediate line. -/
theorem numberedPart_sublist {α : Type} (location : α → Location) (stack : List α) :
    (numberedPart location stack).Sublist stack :=
  List.reverse_sublist.mp (by
    rw [numberedPart, List.reverse_reverse]
    exact List.takeWhile_sublist _)

theorem isNumbered_of_mem_numberedPart {α : Type} {location : α → Location} {stack : List α}
    {x : α} (h : x ∈ numberedPart location stack) : (location x).line ≠ .immediate := by
  rw [numberedPart, List.mem_reverse] at h
  intro hline
  -- the entry is in front of the first one that points into the immediate line
  have hnumbered := List.all_eq_true.mp List.all_takeWhile x h
  rw [hline] at hnumbered
  cases hnumbered

/-- Storing a line leaves the others alone. -/
theorem getElem?_store_of_ne (p : Program) {n k : Nat} (tokens : List Token) (h : n ≠ k) :
    (p.store n tokens).lines[k]? = p.lines[k]? := by
  rw [store]
  split
  · rw [Std.ExtTreeMap.getElem?_erase, if_neg (by simpa using h)]
  · rw [Std.ExtTreeMap.getElem?_insert, if_neg (by simpa using h)]

namespace Sound

/-- A new immediate line has nothing pointing into it. -/
theorem setImmediate (h : p.Sound o) (tokens : List Token) : (p.setImmediate tokens).Sound o :=
  { (h.withCalls (numberedPart_sublist Frame.ret p.calls)).withLoops
      (numberedPart_sublist Loop.resume p.loops) with
    index := Nat.zero_le _
    returns := fun _ hf hline => absurd hline (isNumbered_of_mem_numberedPart hf)
    resumes := fun _ hl hline => absurd hline (isNumbered_of_mem_numberedPart hl) }

/-- A line without tokens is deleted, so that no empty line is stored. -/
theorem store (h : p.Sound o) (n : Nat) (tokens : List Token) : (p.store n tokens).Sound o := by
  refine { h with lines := fun k ts hts => ?_ }
  by_cases hk : n = k
  · rw [hk, Program.store] at hts
    split at hts
    · rw [Std.ExtTreeMap.getElem?_erase_self] at hts
      cases hts
    · next hne =>
      rw [Std.ExtTreeMap.getElem?_insert_self] at hts
      cases hts
      simpa using hne
  · rw [getElem?_store_of_ne p tokens hk] at hts
    exact h.lines k ts hts

theorem resetStacks (h : p.Sound o) : p.resetStacks.Sound o :=
  (h.withCalls (List.nil_sublist _)).withLoops (List.nil_sublist _)

/-- The breakpoint and the place in the data play no part. -/
theorem withBreakpoint (h : p.Sound o) (breakpoint : Option Location) (dataIndex : Nat) :
    { p with breakpoint, dataIndex }.Sound o :=
  { h with }

theorem reset (h : p.Sound o) : p.reset.Sound o :=
  h.resetStacks.withBreakpoint none 0

theorem interrupt (h : p.Sound o) : p.interrupt.Sound o := by
  rw [Program.interrupt]
  split
  · exact h.withBreakpoint _ _
  · exact h

end Sound

end LineBasic.Program
