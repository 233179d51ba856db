import LineBasic.Proofs.Machine.StepInvariant

/-!
# Evaluation is balanced

An expression may call functions, and these may call others; each call pends while its body is
evaluated on another line. Wherever evaluation ends, even if it fails in the middle of such a body,
all these calls are over and the machine is where it was, further right on the line. Statements rely
on this: an `INPUT` is executed again from its keyword, a `RETURN` looks at the call on top, and a
`NEXT` looks its variable up among the arguments of pending calls.

## Main definitions

* `Machine.OnlyArraysMatter` — properties that evaluation keeps if making an array does
* `Machine.Grown` — arrays were made as they are at their first use
* `Machine.Evaluated` — what evaluation leaves behind

## Main results

* `Machine.OnlyArraysMatter.keeps_evalWith` — evaluation keeps such properties
* `Machine.evaluation_balanced` — evaluation is balanced and touches nothing else
-/

namespace LineBasic.Machine

variable {ε α : Type} {o : Options} {m n s : Machine} {P : Machine → Prop}

/-! ### Properties of the arrays -/

/-- A property that neither the program nor random numbers play a part in, and that holds after an
array was made at its first use. -/
structure OnlyArraysMatter (P : Machine → Prop) : Prop where
  program : ∀ (m : Machine) (p : Program), P m → P { m with program := p }
  random : ∀ (m : Machine) (random : Random) (x : Float), P m → P { m with random, lastRandom := x }
  arrayFor : ∀ (name : Name) (axes : Nat), Keeps P (fun _ => True) (arrayFor name axes)

namespace OnlyArraysMatter

theorem onProgram (h : OnlyArraysMatter P) (x : Program.Action α) :
    Keeps P (fun _ => True) (onProgram x) := by
  intro m hm
  rw [Machine.onProgram]
  cases x m.program with
  | ok a p => exact h.program m p hm
  | error c p => exact ⟨h.program m p hm, trivial⟩

/-- Returning from a function keeps the property as well. -/
theorem inFunction (h : OnlyArraysMatter P) {x : Eval α} (hx : Keeps P (fun _ => True) x) :
    Keeps P (fun _ => True) (inFunction x) := by
  intro m hm
  have hend := hx m hm
  have hpop := h.onProgram Program.popFunction
  -- the call is given up when its body fails, too
  rw [Machine.inFunction]
  cases hxm : x m with
  | ok a m₁ =>
    rw [hxm] at hend
    have hback := hpop m₁ hend
    dsimp only
    split
    · next heq =>
      rw [heq] at hback
      exact hback
    · next heq =>
      rw [heq] at hback
      exact hback
  | error c m₁ =>
    rw [hxm] at hend
    have hback := hpop m₁ hend.1
    dsimp only
    split
    · next heq =>
      rw [heq] at hback
      exact ⟨hback, trivial⟩
    · next heq =>
      rw [heq] at hback
      exact hback

theorem callRules (h : OnlyArraysMatter P) :
    CallRules (fun _ => True) fun _ => Keeps P (fun _ => True) where
  pure := .pure
  throw _ _ _ := .throw trivial
  bind := .bind
  look _ hf := .get_bind fun m _ => hf m trivial
  skip _ := .modify fun m hm => h.program m _ hm
  draw := .modify fun m hm => h.random m _ _ hm
  arrayFor := h.arrayFor
  enter _ _ _ := h.onProgram _
  inFunction := h.inFunction

/-- Evaluation keeps the property, whatever functions it calls. -/
theorem keeps_evalWith (h : OnlyArraysMatter P) (depth : Nat) (e : Expr) :
    Keeps P (fun _ => True) (evalWith (bodyAt depth) e) :=
  h.callRules.expr (h.callRules.calls (h.callRules.bodyAt depth)) e

end OnlyArraysMatter

/-! ### Arrays that evaluation makes -/

/-- The array that is made when an element of it is first used. -/
def firstArray (m : Machine) (name : Name) (axes : Nat) : Except Cause Grid :=
  Grid.make name.isString (List.replicate axes implicitSize) m.maxElements

theorem arrayFor_none {name : Name} (h : m.arrays[name]? = none) (axes : Nat) :
    arrayFor name axes m =
      match m.firstArray name axes with
      | .ok g => .ok g { m with arrays := m.arrays.insert name g }
      | .error c => .error c m := by
  rw [arrayFor, get_bind_apply]
  simp only [h, bind_apply, ofExcept, firstArray]
  cases Grid.make name.isString (List.replicate axes implicitSize) m.maxElements with
  | ok g => rfl
  | error c => rfl

/-- `n` has the arrays of `m`, and others that were made at their first use. -/
structure Grown (m n : Machine) : Prop where
  bound : n.maxElements = m.maxElements
  kept : ∀ (name : Name) (g : Grid), m.arrays[name]? = some g → n.arrays[name]? = some g
  made : ∀ (name : Name) (g : Grid), n.arrays[name]? = some g →
    m.arrays[name]? = some g ∨ ∃ axes, m.firstArray name axes = .ok g

theorem Grown.refl (m : Machine) : m.Grown m :=
  ⟨rfl, fun _ _ h => h, fun _ _ h => .inl h⟩

theorem Grown.insert (h : m.Grown n) {name : Name} {axes : Nat} {g : Grid}
    (hnone : n.arrays[name]? = none) (hg : n.firstArray name axes = .ok g) :
    m.Grown { n with arrays := n.arrays.insert name g } := by
  refine ⟨h.bound, fun other g' hg' => ?_, fun other g' hg' => ?_⟩
  · have hother := h.kept other g' hg'
    have hne : name ≠ other := by
      rintro rfl
      rw [hnone] at hother
      cases hother
    rw [Std.ExtTreeMap.getElem?_insert, if_neg (by simpa using hne), hother]
  · rw [Std.ExtTreeMap.getElem?_insert] at hg'
    split at hg'
    · next heq =>
      cases hg'
      rw [firstArray, h.bound] at hg
      rw [← Std.LawfulEqOrd.eq_of_compare heq]
      exact .inr ⟨axes, hg⟩
    · exact h.made other g' hg'

theorem onlyArraysMatter_grown (m : Machine) : OnlyArraysMatter m.Grown where
  program _ _ h := ⟨h.bound, h.kept, h.made⟩
  random _ _ _ h := ⟨h.bound, h.kept, h.made⟩
  arrayFor name axes := by
    intro n hn
    cases harray : n.arrays[name]? with
    | some g =>
      rw [Machine.arrayFor, get_bind_apply]
      simp only [harray]
      exact hn
    | none =>
      rw [arrayFor_none harray]
      cases hg : n.firstArray name axes with
      | error c => exact ⟨hn, trivial⟩
      | ok g => exact hn.insert harray hg

/-! ### Balance -/

/-- What an evaluation from `s` leaves behind, wherever it ends: the location may be further right
on its line, random numbers may have been drawn, and arrays may have been made. In everything else
the machine is as it was. -/
structure Evaluated (s s' : Machine) : Prop where
  forward : s.program.location.index ≤ s'.program.location.index
  within : s'.program.location.index ≤ s.program.current.length
  same : s' =
    { s with
      program.location.index := s'.program.location.index
      arrays := s'.arrays
      random := s'.random
      lastRandom := s'.lastRandom }
  grown : s.Grown s'

theorem Walked.evaluated (h : m.Walked n) (hgrown : m.Grown n) : m.Evaluated n where
  forward := h.forward
  within := h.within
  same := by
    have hprogram := h.program
    rw [Program.atIndex] at hprogram
    rw [← hprogram]
    exact h.same
  grown := hgrown

/-- Only where the line ends in front of an operand is there no token to take, and no value. -/
theorem width_pos_of_evalWith {body : Name → Eval Value} {e : Expr} {v : Value}
    (h : evalWith body e m = .ok v n) : 0 < e.width := by
  cases e with
  | missing => cases h
  | binary op left right => rw [Expr.width]; omega
  | call name args => rw [Expr.width]; omega
  | paren e close => rw [Expr.width]; omega
  | unary op e => rw [Expr.width]; omega
  | number x => exact Nat.one_pos
  | string s => exact Nat.one_pos
  | scalar name => exact Nat.one_pos
  | misplaced t => exact Nat.one_pos

/-- Evaluation is balanced in the middle of a step. -/
theorem MidStep.evaluated (h : m.MidStep s) (hm : m.Sound o) {e : Expr}
    (hroom : s.program.location.index + e.width ≤ s.program.current.length) :
    Concludes
      (fun _ s' => s.Evaluated s' ∧ s.program.location.index < s'.program.location.index)
      (fun _ s' => s.Evaluated s') (evalWith (bodyAt s.callsLeft) e s) := by
  have hwalks := Walks.expr (returns_bodyAt s.callsLeft) e s (h.fit hm) hroom
  have harrays := onlyArraysMatter_grown s
  have hgrown := harrays.keeps_evalWith s.callsLeft e s (.refl s)
  cases hend : evalWith (bodyAt s.callsLeft) e s with
  | ok v s' =>
    rw [hend] at hwalks hgrown
    obtain ⟨hwalked, hindex⟩ := hwalks
    refine ⟨hwalked.evaluated hgrown, ?_⟩
    have hwidth := width_pos_of_evalWith hend
    omega
  | error c s' =>
    rw [hend] at hwalks hgrown
    exact hwalks.1.evaluated hgrown.1

/-- Wherever in a step an expression is evaluated, and whether it has a value or not: afterwards the
pending calls and loops, the line and its tokens, the stored lines, the variables, the functions,
the place in the data, the breakpoint, what was shown and the reply are as before; arrays keep their
elements, and new ones are as they are made at their first use. Only the place on the line and the
random numbers have moved on, and behind a value the place has. This holds of the expression at the
location, and of every other one that has room on the line. -/
theorem evaluation_balanced (h : Reachable o m) (hrunning : m.state = .running)
    (hs : m.ComesBy s) :
    Concludes
        (fun _ s' => s.Evaluated s' ∧ s.program.location.index < s'.program.location.index)
        (fun _ s' => s.Evaluated s') (expression s) ∧
      ∀ e : Expr, s.program.location.index + e.width ≤ s.program.current.length →
        Concludes
          (fun _ s' => s.Evaluated s' ∧ s.program.location.index < s'.program.location.index)
          (fun _ s' => s.Evaluated s') (evalWith (bodyAt s.callsLeft) e s) := by
  have hmid := hs.midStep h.sound hrunning
  refine ⟨?_, fun e hroom => hmid.evaluated h.sound hroom⟩
  rw [expression, get_bind_apply]
  exact hmid.evaluated h.sound (Program.width_read_le hmid.index)

/-- Here a `PRINT` is about to call a function whose body makes an array. -/
theorem evaluation_balanced_call :
    ∃ m s, Reachable {} m ∧ m.state = .running ∧ m.ComesBy s ∧
      s.functions.contains (utf8 "FNA") = true ∧
      s.program.rest = [.symbol (utf8 "FNA"), .mark .lparen, .number 2, .mark .rparen] ∧
      Concludes
        (fun _ s' => s.Evaluated s' ∧ s.program.location.index < s'.program.location.index)
        (fun _ s' => s.Evaluated s') (expression s) := by
  have h : Reachable {} ((((new {}).perform
      (.submit (utf8 "10 DEF FNA(X)=A(X):PRINT FNA(2)"))).perform
        (.submit (utf8 "RUN"))).perform .step) := .perform _ (.perform _ (.perform _ .start))
  have hread : (Token.read (Bytes.trimLineEnds (utf8 "10 DEF FNA(X)=A(X):PRINT FNA(2)"))).map
      numbered? =
      .ok (some (10, [.keyword .DEF, .symbol (utf8 "FNA"), .mark .lparen, .symbol (utf8 "X"),
        .mark .rparen, .mark .equal, .symbol (utf8 "A"), .mark .lparen, .symbol (utf8 "X"),
        .mark .rparen, .mark .colon, .keyword .PRINT, .symbol (utf8 "FNA"), .mark .lparen,
        .number 2, .mark .rparen])) := by
    decide +kernel
  rw [perform_numbered (by decide +kernel) (by decide +kernel) hread,
    perform_run (by decide +kernel) (startAtFirst?_singleton rfl)] at h
  generalize hm : Machine.perform _ .step = m at h
  have hkeyword : m.program.peek? = some (.keyword .PRINT) := by
    subst hm
    decide +kernel
  have hrunning : m.state = .running := by
    subst hm
    decide +kernel
  have hcomes : m.ComesBy m.announce.atStatement.past := by
    refine comesBy_print hrunning hkeyword ?_ ?_ ?_
    · subst hm; decide +kernel
    · have hpeek : m.announce.atStatement.past.program.peek? = some (.symbol (utf8 "FNA")) := by
        subst hm
        decide +kernel
      rintro (hseparator | hseparator) <;> rw [hpeek] at hseparator <;> cases hseparator
    · subst hm; decide +kernel
  refine ⟨m, m.announce.atStatement.past, h, hrunning, hcomes, ?_, ?_,
    (evaluation_balanced h hrunning hcomes).1⟩
  · subst hm; decide +kernel
  · subst hm; decide +kernel

end LineBasic.Machine
