import LineBasic.Proofs.Machine.RewordStep
import LineBasic.Proofs.Machine.Rounds
import LineBasic.Proofs.Program.OnStoredLines

/-!
# An item in other words

Two machines are abreast if one is the other with other words on its line, and both are at the same
words of it, whatever comes behind these. A target that both have in front of them is then the same
target, and reading a field of data into it, dimensioning an array or ending a round of a loop does
the same on both. Afterwards they are abreast behind it, or both have gone back to the body of the
same loop, or both have failed for the same cause.

## Main definitions

* `Machine.Abreast` — two machines that differ in what comes behind the words at the location
* `Machine.KeepsAbreast` — an action that leaves two machines abreast where they are
* `Machine.Onward` — two machines behind an item of a list

## Main results

* `Machine.together_target`, `Machine.together_nextLoop` — a target, and a round of a loop
* `Machine.together_readItem`, `Machine.together_dimItem`, `Machine.together_nextItem` — items of
  lists
-/

namespace LineBasic

/-! ### The loop over a variable -/

namespace Program

variable {p q : Program} {name : Name} {l : Loop} {loops outer : List Loop} {x : Float}

theorem loopFor?_map {f : Loop → Loop} (hf : ∀ l, (f l).name = l.name) (name : Name)
    (loops : List Loop) :
    loopFor? name (loops.map f) = (loopFor? name loops).map (Prod.map f (List.map f)) := by
  cases name with
  | nil => cases loops <;> rfl
  | cons c name =>
    change splitAtLoop? _ _ = (splitAtLoop? _ _).map _
    induction loops with
    | nil => rfl
    | cons l loops ih =>
      rw [List.map_cons, splitAtLoop?, splitAtLoop?, hf]
      split
      · rfl
      · exact ih

/-- A `NEXT` ends a round of the loop over its variable. -/
theorem endLoop_of_some (h : loopFor? name p.loops = some (l, outer)) (x : Float) :
    endLoop name x p = endLoop l.name x { p with loops := l :: outer } := by
  have hself : loopFor? l.name ({ p with loops := l :: outer } : Program).loops = some (l, outer) :=
    loopFor?_self l outer
  rw [endLoop_some x h, endLoop_some x hself]

/-- A loop of the other program goes round as that of the first one does. -/
theorem endLoop_reworded {y : Rewording} (h : p.Has y) (name : Name) (i : Nat) (x : Float) :
    Together (fun _ q q' =>
        (∃ loops, q = { p with loops } ∧
            q' = { (p.reworded y).atIndex i with loops := loops.map y.loop }) ∨
          q.jumped = true ∧ q' = q.reworded y ∧ ∃ loops loc tokens,
            q = { p with loops, location := loc, current := tokens, jumped := true })
      (fun q q' => ∃ loops, q = { p with loops } ∧
        q' = { (p.reworded y).atIndex i with loops := loops.map y.loop })
      (endLoop name x p) (endLoop name x ((p.reworded y).atIndex i)) := by
  have hfound := loopFor?_map (f := y.loop) (fun _ => rfl) name p.loops
  cases hloop : loopFor? name p.loops with
  | none =>
    rw [hloop, Option.map_none] at hfound
    rw [endLoop_none x hloop, endLoop_none x hfound]
    exact ⟨rfl, p.loops, rfl, rfl⟩
  | some found =>
    obtain ⟨l, outer⟩ := found
    rw [hloop, Option.map_some] at hfound
    have hfound' : loopFor? name ((p.reworded y).atIndex i).loops =
        some (y.loop l, outer.map y.loop) := hfound
    rw [endLoop_of_some hloop, endLoop_of_some hfound', Machine.endLoop_eq rfl rfl,
      Machine.endLoop_eq rfl rfl]
    have hcontinues : (y.loop l).continues (x + (y.loop l).step) = l.continues (x + l.step) := rfl
    rw [hcontinues]
    -- the condition looks at numbers only, so both loops decide alike
    by_cases hagain : l.continues (x + l.step) = true
    · rw [if_pos hagain, if_pos hagain]
      have hhas : ({ p with loops := l :: outer } : Program).Has y := h
      have hmove : ({ (p.reworded y).atIndex i with
          loops := y.loop l :: outer.map y.loop } : Program).moveTo? (y.loop l).resume = _ :=
        moveTo?_reworded hhas l.resume
      rw [hmove]
      cases hback : ({ p with loops := l :: outer } : Program).moveTo? l.resume with
      | none => exact ⟨rfl, l :: outer, rfl, rfl⟩
      | some q =>
        obtain ⟨tokens, rfl⟩ := moveTo?_eq_some hback
        exact ⟨rfl, .inr ⟨rfl, rfl, _, _, _, rfl⟩⟩
    · rw [if_neg hagain, if_neg hagain]
      exact ⟨rfl, .inl ⟨outer, rfl, rfl⟩⟩

end Program

namespace Machine

variable {o : Options} {y : Rewording} {s t : Machine} {w : Written} {more more' : List Token}

/-- Two machines with different words on one line, with these tokens left of their own lines. No
statement has transferred control, and nothing is traced. -/
structure Abreast (y : Rewording) (more more' : List Token) (s t : Machine) : Prop where
  rewords : Rewords y s t
  left : s.program.rest = more
  right : t.program.rest = more'
  within : t.program.location.index ≤ t.program.current.length
  line : s.program.location.line = y.line
  jumped : s.program.jumped = false
  quiet : s.tracing = false

namespace Abreast

theorem past {u u' : Token} (h : Abreast y (u :: more) (u' :: more') s t) :
    Abreast y more more' s.past t.past := by
  have hpeek := List.getElem?_eq_some_iff.mp (Program.peek?_of_rest h.right)
  obtain ⟨hindex, -⟩ := hpeek
  refine ⟨?_, rest_past h.left, rest_past h.right, hindex, h.line, h.jumped, h.quiet⟩
  obtain ⟨⟨hhas, hreads, i, log, rfl⟩, -⟩ := h
  exact ⟨hhas, hreads, i + 1, log, rfl⟩

theorem arrays (h : Abreast y more more' s t) : t.arrays = s.arrays := by
  obtain ⟨⟨hhas, hreads, i, log, rfl⟩, -⟩ := h
  rfl

theorem maxElements (h : Abreast y more more' s t) : t.maxElements = s.maxElements := by
  obtain ⟨⟨hhas, hreads, i, log, rfl⟩, -⟩ := h
  rfl

theorem lookup (h : Abreast y more more' s t) (name : Name) : t.lookup name = s.lookup name := by
  have hparam := h.rewords.param? name
  obtain ⟨⟨hhas, hreads, i, log, rfl⟩, -⟩ := h
  rw [Machine.lookup, Machine.lookup, hparam]
  rfl

/-- What is stored plays no part in where the machines are. -/
theorem insertScalar (h : Abreast y more more' s t) (name : Name) (v : Value) :
    Abreast y more more' { s with scalars := s.scalars.insert name v }
      { t with scalars := t.scalars.insert name v } := by
  obtain ⟨⟨hhas, hreads, i, log, rfl⟩, hleft, hright, hwithin, hline, hjumped, hquiet⟩ := h
  exact ⟨⟨hhas, hreads, i, log, rfl⟩, hleft, hright, hwithin, hline, hjumped, hquiet⟩

theorem insertArray (h : Abreast y more more' s t) (name : Name) (g : Grid) :
    Abreast y more more' { s with arrays := s.arrays.insert name g }
      { t with arrays := t.arrays.insert name g } := by
  obtain ⟨⟨hhas, hreads, i, log, rfl⟩, hleft, hright, hwithin, hline, hjumped, hquiet⟩ := h
  exact ⟨⟨hhas, hreads, i, log, rfl⟩, hleft, hright, hwithin, hline, hjumped, hquiet⟩

/-- The next field of data is the same. -/
theorem datum (h : Abreast y more more' s t) :
    t.program.data[t.program.dataIndex]? = s.program.data[s.program.dataIndex]? := by
  obtain ⟨⟨hhas, hreads, i, log, rfl⟩, -⟩ := h
  have hdata : ((s.program.reworded y).atIndex i).data = s.program.data :=
    Program.data_reworded hhas
  rw [hdata]
  rfl

theorem moveData (h : Abreast y more more' s t) :
    Abreast y more more'
      { s with program := { s.program with dataIndex := s.program.dataIndex + 1 } }
      { t with program := { t.program with dataIndex := t.program.dataIndex + 1 } } := by
  obtain ⟨⟨hhas, hreads, i, log, rfl⟩, hleft, hright, hwithin, hline, hjumped, hquiet⟩ := h
  exact ⟨⟨hhas, hreads, i, log, rfl⟩, hleft, hright, hwithin, hline, hjumped, hquiet⟩

end Abreast

/-- An action that ends together on two machines that are abreast and leaves them so. -/
def KeepsAbreast {ε α : Type} (x : EStateM ε Machine α) : Prop :=
  ∀ (y : Rewording) (more more' : List Token) (s t : Machine), Abreast y more more' s t →
    Together (fun _ s' t' => Abreast y more more' s' t') (Rewords y) (x s) (x t)

namespace KeepsAbreast

variable {ε α β : Type}

theorem bind {x : EStateM ε Machine α} {f : α → EStateM ε Machine β} (hx : KeepsAbreast x)
    (hf : ∀ a, KeepsAbreast (f a)) : KeepsAbreast (x >>= f) :=
  fun y more more' s t h => (hx y more more' s t h).bind fun a s' t' => hf a y more more' s' t'

theorem pure (a : α) : KeepsAbreast (Pure.pure a : EStateM ε Machine α) :=
  fun _ _ _ _ _ h => ⟨rfl, h⟩

theorem throw (e : ε) : KeepsAbreast (MonadExcept.throw e : EStateM ε Machine α) :=
  fun _ _ _ _ _ h => ⟨rfl, h.rewords⟩

theorem ofExcept (r : Except Cause α) : KeepsAbreast (Machine.ofExcept r) := by
  intro y more more' s t h
  cases r with
  | ok a => exact ⟨rfl, h⟩
  | error c => exact ⟨rfl, h.rewords⟩

theorem ofEval {x : Eval α} (h : KeepsAbreast x) : KeepsAbreast (Machine.ofEval x) :=
  fun y more more' s t h' => together_ofEval (h y more more' s t h')

theorem checkFits (name : Name) (v : Value) : KeepsAbreast (Machine.checkFits name v) := by
  rw [Machine.checkFits]
  split
  · exact pure ()
  · exact throw _

theorem setVariable (name : Name) (v : Value) : KeepsAbreast (Machine.setVariable name v) :=
  fun _ _ _ _ _ h => ⟨rfl, h.insertScalar name v⟩

theorem setArray (name : Name) (g : Grid) :
    KeepsAbreast (modify fun m : Machine => { m with arrays := m.arrays.insert name g } :
      EStateM ε Machine Unit) :=
  fun _ _ _ _ _ h => ⟨rfl, h.insertArray name g⟩

/-- An array that is made at its first use is made on both machines. -/
theorem arrayFor (name : Name) (axes : Nat) : KeepsAbreast (Machine.arrayFor name axes) := by
  intro y more more' s t h
  have hmake : Grid.make name.isString (List.replicate axes implicitSize) t.maxElements =
      Grid.make name.isString (List.replicate axes implicitSize) s.maxElements := by
    rw [h.maxElements]
  have hinsert := h.insertArray name
  rw [h.arrays] at hinsert
  rw [Machine.arrayFor, get_bind_apply, get_bind_apply, h.arrays]
  cases s.arrays[name]? with
  | some g => exact ⟨rfl, h⟩
  | none =>
    simp only [bind_apply, Machine.ofExcept, hmake]
    cases Grid.make name.isString (List.replicate axes implicitSize) s.maxElements with
    | error c => exact ⟨rfl, h.rewords⟩
    | ok g => exact ⟨rfl, hinsert g⟩

theorem assign (tgt : Target) (v : Value) : KeepsAbreast (Machine.assign tgt v) := by
  refine (checkFits tgt.name v).bind fun _ => ?_
  cases tgt with
  | scalar name => exact setVariable name v
  | element name index =>
    exact (arrayFor name index.length).bind fun g => (ofExcept _).bind fun g' => setArray name g'

/-- The next field of data is the same. -/
theorem nextDatum : KeepsAbreast (onProgram Program.nextDatum) := by
  intro y more more' s t h
  have hfield := h.datum
  have hmoved := h.moveData
  rw [onProgram, onProgram, Program.nextDatum, Program.nextDatum, hfield]
  cases s.program.data[s.program.dataIndex]? with
  | none => exact ⟨rfl, h.rewords⟩
  | some d => exact ⟨rfl, hmoved⟩

end KeepsAbreast

/-! ### Subscripts and targets -/

theorem Abreast.walked {s' t' : Machine} {more₁ more₁' : List Token}
    (h : Abreast y more more' s t) (hs : s.Walked s') (ht : t.Walked t') (heven : s'.Even t')
    (hleft : s'.program.rest = more₁) (hright : t'.program.rest = more₁') :
    Abreast y more₁ more₁' s' t' where
  rewords := h.rewords.walked hs ht heven
  left := hleft
  right := hright
  within := by
    rw [ht.current]
    exact ht.within
  line := by
    rw [hs.program]
    exact h.line
  jumped := by
    rw [hs.program]
    exact h.jumped
  quiet := by
    rw [hs.same]
    exact h.quiet

theorem together_subscripts {name : Name} {args : List Token}
    (hw : (Written.element name args).Closed) (hs : s.Active o)
    (h : Abreast y (args ++ more) (args ++ more') s t) :
    Together (fun _ s' t' => Abreast y more more' s' t') (Rewords y) (subscripts s)
      (subscripts t) := by
  have hread : (Arguments.read t.program.rest).phrase = (Arguments.read s.program.rest).phrase := by
    rw [h.left, h.right, (Written.read_append hw more).1, (Written.read_append hw more').1]
  have ht : t.Fit t.functions t.callsLeft := h.rewords.callsLeft ▸ h.rewords.fit hs.fit
  have hleft := concludes_subscripts hw hs.fit hs.program.index h.left
  have hright := concludes_subscripts hw ht h.within h.right
  have htallies := (h.rewords.kin hs.fit).subscripts hs.program.index h.within hread
  refine (htallies.and hleft hright).mono ?_ ?_
  · rintro _ s' t' ⟨heven, ⟨hwalked, hrest⟩, hwalked', hrest'⟩
    exact h.walked hwalked hwalked' heven hrest hrest'
  · rintro s' t' ⟨heven, -, hwalked, hwalked'⟩
    exact h.rewords.walked hwalked hwalked' heven

/-- A target is the same on both machines. -/
theorem together_target (hw : w.Closed) (hs : s.Active o)
    (h : Abreast y (w.tokens ++ more) (w.tokens ++ more') s t)
    (hmore : more.head? ≠ some (.mark .lparen)) (hmore' : more'.head? ≠ some (.mark .lparen)) :
    Together (fun _ s' t' => Abreast y more more' s' t') (Rewords y) (target s) (target t) := by
  cases w with
  | scalar name =>
    rw [target_scalar h.left hmore, target_scalar h.right hmore']
    exact ⟨rfl, h.past⟩
  | element name args =>
    have hname : s.Trod s.past := .past h.left rfl
    have hparen : s.past.Trod s.past.past := .past (rest_past h.left) rfl
    have hactive := (hs.walked hname.toWalked).walked hparen.toWalked
    rw [target_element h.left, target_element h.right]
    exact (together_subscripts hw hactive h.past.past).bind fun _ _ _ h' => ⟨rfl, h'⟩

/-! ### Items -/

theorem nextName_eq {m : Machine} {name : Name} {ts : List Token}
    (h : m.program.rest = .symbol name :: ts) : nextName m = .ok name m.past := by
  rw [nextName, ofEval, nextName_of_rest h]

/-- Without a parenthesis, it depends on whether the line ends what is wrong. -/
theorem expect_lparen {m : Machine} (h : m.program.rest.head? ≠ some (.mark .lparen)) :
    expect (.mark .lparen) m =
      .error (.fault (if m.program.rest = [] then .endOfInput else .expected (.mark .lparen)))
        m := by
  rw [← Program.peek?_eq_head?] at h
  rw [expect, ofEval, onProgram, Program.expect, Program.peekKind?]
  cases hrest : m.program.rest with
  | nil =>
    rw [Program.peek?_eq_head?, hrest, if_pos rfl]
    rfl
  | cons t ts =>
    have hpeek := Program.peek?_of_rest hrest
    have hkind : t.kind ≠ .mark .lparen := by
      intro hkind
      refine h (Program.peek?_of_peekKind?_mark ?_)
      rw [Program.peekKind?, hpeek, Option.map_some, hkind]
    rw [hpeek, if_neg (List.cons_ne_nil t ts)]
    simp only [Option.map_some, if_neg hkind]

/-- Behind an item of a list, two machines are abreast in front of what comes next, unless a loop
goes round again. Then they are back at its body. -/
def Onward (y : Rewording) (more more' : List Token) (again : Bool) (s t : Machine) : Prop :=
  again = true ∧ Abreast y more more' s t ∨
    again = false ∧ s.program.jumped = true ∧ Parallel y s t

/-- The same field of data is read into the same target. -/
theorem together_readItem (hw : w.Closed) (hs : s.Active o)
    (h : Abreast y (w.tokens ++ more) (w.tokens ++ more') s t)
    (hmore : more.head? ≠ some (.mark .lparen)) (hmore' : more'.head? ≠ some (.mark .lparen)) :
    Together (Onward y more more') (Rewords y) (readItem s) (readItem t) := by
  have htarget := together_ofEval (together_target hw hs h hmore hmore')
  rw [readItem_eq]
  refine htarget.bind fun tgt s₁ t₁ h₁ => ?_
  have hdatum := KeepsAbreast.nextDatum.ofEval y more more' s₁ t₁ h₁
  refine hdatum.bind fun datum s₂ t₂ h₂ => ?_
  rcases storeDatum_cases tgt datum with ⟨v, heq⟩ | heq
  · rw [heq]
    have hassign := (KeepsAbreast.assign tgt v).ofEval y more more' s₂ t₂ h₂
    exact hassign.bind fun _ _ _ h₃ => ⟨rfl, .inl ⟨rfl, h₃⟩⟩
  · rw [heq]
    exact ⟨rfl, h₂.rewords⟩

/-- The same array is dimensioned. -/
theorem together_dimItem (hw : w.Closed) (hs : s.Active o)
    (h : Abreast y (w.tokens ++ more) (w.tokens ++ more') s t)
    (hmore : more.head? ≠ some (.mark .lparen)) (hmore' : more'.head? ≠ some (.mark .lparen))
    (hempty : more = [] ↔ more' = []) :
    Together (Onward y more more') (Rewords y) (dimItem s) (dimItem t) := by
  rw [dimItem]
  cases w with
  | scalar name =>
    have hleft : s.past.program.rest.head? ≠ some (.mark .lparen) := by rwa [h.past.left]
    have hright : t.past.program.rest.head? ≠ some (.mark .lparen) := by rwa [h.past.right]
    rw [bind_apply, bind_apply, nextName_eq h.left, nextName_eq h.right]
    dsimp only
    rw [bind_apply, bind_apply, expect_lparen hleft, expect_lparen hright, h.past.left,
      h.past.right]
    exact ⟨by simp [hempty], h.past.rewords⟩
  | element name args =>
    have hname : s.Trod s.past := .past h.left rfl
    have hparen : s.past.Trod s.past.past := .past (rest_past h.left) rfl
    have hactive := (hs.walked hname.toWalked).walked hparen.toWalked
    rw [bind_apply, bind_apply, nextName_eq h.left, nextName_eq h.right]
    dsimp only
    rw [bind_apply, bind_apply, expect_of_rest (k := .mark .lparen) (rest_past h.left) rfl,
      expect_of_rest (k := .mark .lparen) (rest_past h.right) rfl]
    have hbounds := together_ofEval (together_subscripts hw hactive h.past.past)
    refine hbounds.bind fun bounds s₁ t₁ h₁ => ?_
    rw [get_bind_apply, get_bind_apply, h₁.arrays, h₁.maxElements]
    split
    · exact ⟨rfl, h₁.rewords⟩
    · have hmake := (KeepsAbreast.ofExcept (Grid.make name.isString (bounds.map (· + 1))
        s₁.maxElements)).ofEval y more more' s₁ t₁ h₁
      exact hmake.bind fun g s₂ t₂ h₂ => ⟨rfl, .inl ⟨rfl, h₂.insertArray name g⟩⟩

/-- The same loop goes round again, or it is over on both machines. -/
theorem together_endLoop (h : Abreast y more more' s t) (name : Name) (x : Float) :
    Together (fun _ s' t' => Abreast y more more' s' t' ∨
        s'.program.jumped = true ∧ Parallel y s' t') (Rewords y)
      (onProgram (Program.endLoop name x) s) (onProgram (Program.endLoop name x) t) := by
  obtain ⟨⟨hhas, hreads, i, log, rfl⟩, hleft, hright, hwithin, hline, hjumped, hquiet⟩ := h
  have hend := Program.endLoop_reworded hhas name i x
  rw [onProgram, onProgram]
  dsimp only
  rcases hend.cases with ⟨a, q, q', hq, hq', hend⟩ | ⟨c, q, q', hq, hq', loops, rfl, rfl⟩
  · rw [hq, hq']
    rcases hend with ⟨loops, rfl, rfl⟩ | ⟨hback, rfl, loops, loc, tokens, rfl⟩
    · exact ⟨rfl,
        .inl ⟨⟨hhas, hreads, i, log, rfl⟩, hleft, hright, hwithin, hline, hjumped, hquiet⟩⟩
    · exact ⟨rfl, .inr ⟨hback, hhas, hreads, log, rfl⟩⟩
  · rw [hq, hq']
    exact ⟨rfl, hhas, hreads, i, log, rfl⟩

/-- A round of the same loop ends, with the same next value of its variable. -/
theorem together_nextLoop (h : Abreast y more more' s t) (name : Name) :
    Together (fun _ s' t' => Abreast y more more' s' t' ∨
        s'.program.jumped = true ∧ Parallel y s' t')
      (Rewords y) (nextLoop name s) (nextLoop name t) := by
  rw [nextLoop, get_bind_apply, get_bind_apply, h.lookup]
  have hvalue := (KeepsAbreast.ofExcept (s.lookup name).number).ofEval y more more' s t h
  refine hvalue.bind fun value s₁ t₁ h₁ => ?_
  refine (together_ofEval (together_endLoop h₁ name value)).bind fun x s₂ t₂ h₂ => ?_
  rcases h₂ with h₂ | ⟨hjumped, hhas, hreads, log, rfl⟩
  · exact ⟨rfl, .inl (h₂.insertScalar name (.num x))⟩
  · exact ⟨rfl, .inr ⟨hjumped, hhas, hreads, log, rfl⟩⟩

/-- So it does as an item of a list. The loop that goes round again ends the list. -/
theorem together_nextItem {name : Name}
    (h : Abreast y (.symbol name :: more) (.symbol name :: more') s t) :
    Together (Onward y more more') (Rewords y) (nextItem s) (nextItem t) := by
  rw [nextItem, bind_apply, bind_apply, nextName_eq h.left, nextName_eq h.right]
  refine (together_nextLoop h.past name).bind fun _ s₁ t₁ h₁ => ?_
  rw [get_bind_apply, get_bind_apply]
  rcases h₁ with h₁ | ⟨hjumped, hparallel⟩
  · rw [h₁.rewords.jumped, h₁.jumped]
    exact ⟨rfl, .inl ⟨rfl, h₁⟩⟩
  · rw [hparallel.rewords.jumped, hjumped]
    exact ⟨rfl, .inr ⟨rfl, hjumped, hparallel⟩⟩

end Machine

end LineBasic
