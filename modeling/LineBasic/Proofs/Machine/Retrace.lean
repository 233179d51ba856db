import LineBasic.Proofs.Machine.TokensPassed

/-!
# Evaluating again

What has been evaluated once can be evaluated again. Evaluation looks neither at the reply at hand
nor at what was shown and recorded before, and the arrays that come into being at their first use
are found as they were made when they are used again. So evaluation that succeeds gives the same
value once more, with the same random numbers, and this time it makes no array.

Only success is looked at here. It goes from the parts of an evaluation to the whole, so all that is
shown of single parts is that they can be done again.

## Main definitions

* `Machine.beside` — a machine with another reply, and after another output and log
* `Machine.HasArrays` — arrays that contain those of a machine
* `Retraces` — an action that can be done again

## Main results

* `Retraces.arrayFor`, `Retraces.inFunction` — arrays and calls
* `callRules_retraces` — evaluation, from its parts
* `retraces_target`, `retraces_promptText` — what an `INPUT` evaluates
-/

namespace LineBasic

open Machine

namespace Machine

/-- A machine with another reply at hand, and after another output and log. -/
def beside (m : Machine) (reply : Option Bytes) (output : Array Event) (log : Array LogRecord) :
    Machine :=
  { m with reply, output, log }

/-- The arrays contain those of a machine. -/
def HasArrays (m : Machine) (arrays : Std.ExtTreeMap Name Grid) : Prop :=
  ∀ (name : Name) (g : Grid), m.arrays[name]? = some g → arrays[name]? = some g

end Machine

variable {ε α β : Type}

/-- An action that can be done again. If it succeeds, it adds arrays only. It succeeds in the same
way whatever the reply and the output are, and it does so again when the arrays are there already.
-/
def Retraces (x : EStateM ε Machine α) : Prop :=
  ∀ (m : Machine) (a : α) (m' : Machine), x m = .ok a m' →
    (∀ arrays, m'.HasArrays arrays → m.HasArrays arrays) ∧
    (∀ reply output log, x (m.beside reply output log) = .ok a (m'.beside reply output log)) ∧
    ∀ arrays, m'.HasArrays arrays → x { m with arrays } = .ok a { m' with arrays }

namespace Retraces

theorem bind {x : EStateM ε Machine α} {f : α → EStateM ε Machine β} (hx : Retraces x)
    (hf : ∀ a, Retraces (f a)) : Retraces (x >>= f) := by
  intro m b m'' h
  obtain ⟨a, m', hfirst, hsecond⟩ := bind_eq_ok h
  obtain ⟨hgrown, hbeside, hagain⟩ := hx m a m' hfirst
  obtain ⟨hgrown', hbeside', hagain'⟩ := hf a m' b m'' hsecond
  refine ⟨fun arrays h => hgrown arrays (hgrown' arrays h), fun reply output log => ?_,
    fun arrays h => ?_⟩
  · rw [bind_apply, hbeside reply output log]
    exact hbeside' reply output log
  · rw [bind_apply, hagain arrays (hgrown' arrays h)]
    exact hagain' arrays h

/-- An action that has nothing to do with arrays, reply, output and log. -/
theorem of_apart {x : EStateM ε Machine α}
    (h : ∀ m a m', x m = .ok a m' → ∀ arrays reply output log,
      x { m with arrays, reply, output, log } = .ok a { m' with arrays, reply, output, log }) :
    Retraces x := by
  intro m a m' hx
  have hapart := h m a m' hx
  have hsame : m' =
      { m' with arrays := m.arrays, reply := m.reply, output := m.output, log := m.log } :=
    (EStateM.Result.ok.inj (hx.symm.trans (hapart m.arrays m.reply m.output m.log))).2
  have harrays : m'.arrays = m.arrays := by rw [hsame]
  have hreply : m'.reply = m.reply := by rw [hsame]
  have houtput : m'.output = m.output := by rw [hsame]
  have hlog : m'.log = m.log := by rw [hsame]
  refine ⟨fun arrays h => ?_, fun reply output log => ?_, fun arrays _ => ?_⟩
  · rw [HasArrays, harrays] at h
    exact h
  · refine (hapart m.arrays reply output log).trans ?_
    rw [← harrays]
    rfl
  · refine (hapart arrays m.reply m.output m.log).trans ?_
    rw [← hreply, ← houtput, ← hlog]

theorem pure (a : α) : Retraces (Pure.pure a : EStateM ε Machine α) :=
  of_apart fun _ _ _ h _ _ _ _ => by
    cases h
    rfl

theorem throw (e : ε) : Retraces (MonadExcept.throw e : EStateM ε Machine α) :=
  of_apart fun _ _ _ h => by cases h

theorem onProgram (x : Program.Action α) : Retraces (Machine.onProgram x) := by
  refine of_apart fun m a m' h arrays reply output log => ?_
  rw [Machine.onProgram] at h ⊢
  dsimp only
  split at h
  · cases h
    rfl
  · cases h

theorem modify {f : Machine → Machine}
    (h : ∀ m arrays reply output log, f { m with arrays, reply, output, log } =
      { f m with arrays, reply, output, log }) :
    Retraces (modify f : EStateM ε Machine Unit) := by
  refine of_apart fun m a m' hm arrays reply output log => ?_
  cases hm
  rw [modify_apply, h]

/-- Looking at what is neither arrays nor reply, output or log. -/
theorem get_bind {f : Machine → EStateM ε Machine α}
    (hsame : ∀ m arrays reply output log, f { m with arrays, reply, output, log } = f m)
    (hf : ∀ m, Retraces (f m)) : Retraces (get >>= f) := by
  intro m a m' h
  rw [get_bind_apply] at h
  obtain ⟨hgrown, hbeside, hagain⟩ := hf m m a m' h
  refine ⟨hgrown, fun reply output log => ?_, fun arrays harrays => ?_⟩
  · rw [get_bind_apply, ← hbeside]
    exact congrFun (hsame m m.arrays reply output log) _
  · rw [get_bind_apply, ← hagain arrays harrays]
    exact congrFun (hsame m arrays m.reply m.output m.log) _

theorem ofEval {x : Eval α} (hx : Retraces x) : Retraces (Machine.ofEval x) := by
  intro m a m' h
  have hok : x m = .ok a m' := by
    rw [Machine.ofEval] at h
    split at h
    · next heq =>
      cases h
      exact heq
    · cases h
  obtain ⟨hgrown, hbeside, hagain⟩ := hx m a m' hok
  refine ⟨hgrown, fun reply output log => ?_, fun arrays harrays => ?_⟩
  · rw [Machine.ofEval, hbeside]
  · rw [Machine.ofEval, hagain arrays harrays]

/-- An array that was made is found again. -/
theorem arrayFor (name : Name) (axes : Nat) : Retraces (Machine.arrayFor name axes) := by
  intro m g m' h
  rw [Machine.arrayFor, get_bind_apply] at h
  cases hfound : m.arrays[name]? with
  | some g' =>
    simp only [hfound] at h
    cases h
    refine ⟨fun _ h => h, fun reply output log => ?_, fun arrays harrays => ?_⟩
    · rw [Machine.arrayFor, get_bind_apply]
      simp only [beside, hfound]
      rfl
    · rw [Machine.arrayFor, get_bind_apply]
      simp only [harrays name _ hfound]
      rfl
  | none =>
    simp only [hfound] at h
    obtain ⟨g', m₁, hmake, h⟩ := bind_eq_ok h
    cases hgrid : Grid.make name.isString (List.replicate axes implicitSize) m.maxElements with
    | error c =>
      rw [hgrid] at hmake
      cases hmake
    | ok made =>
      rw [hgrid] at hmake
      cases hmake
      cases h
      refine ⟨fun arrays harrays other g' hother => ?_, fun reply output log => ?_,
        fun arrays harrays => ?_⟩
      · refine harrays other g' ?_
        have hne : name ≠ other := by
          rintro rfl
          rw [hfound] at hother
          cases hother
        change (m.arrays.insert name _)[other]? = _
        rw [Std.ExtTreeMap.getElem?_insert, if_neg (by simpa using hne), hother]
      · rw [Machine.arrayFor, get_bind_apply]
        simp only [beside, hfound, bind_apply, Machine.ofExcept, hgrid]
        rfl
      · have hagain := harrays name _ Std.ExtTreeMap.getElem?_insert_self
        rw [Machine.arrayFor, get_bind_apply]
        simp only [hagain]
        rfl

/-! ### Calls -/

/-- What succeeds inside a function returns from it. -/
theorem inFunction {x : Eval α} (hx : Retraces x) : Retraces (Machine.inFunction x) := by
  have hback :
      Retraces (x >>= fun a => Machine.onProgram Program.popFunction >>= fun _ => Pure.pure a) :=
    hx.bind fun a => (onProgram _).bind fun _ => pure a
  have hsame : ∀ m a m', Machine.inFunction x m = .ok a m' ↔
      (x >>= fun a => Machine.onProgram Program.popFunction >>= fun _ => Pure.pure a) m =
        .ok a m' := by
    intro m a m'
    rw [Machine.inFunction, bind_apply]
    cases x m with
    | ok b m₁ =>
      dsimp only
      rw [bind_apply]
      cases Machine.onProgram Program.popFunction m₁ with
      | ok _ m₂ => rfl
      | error c m₂ => simp
    | error c m₁ =>
      dsimp only
      cases Machine.onProgram Program.popFunction m₁ with
      | ok _ m₂ => simp
      | error c m₂ => simp
  intro m a m' h
  obtain ⟨hgrown, hbeside, hagain⟩ := hback m a m' ((hsame m a m').mp h)
  exact ⟨hgrown, fun reply output log => (hsame _ _ _).mpr (hbeside reply output log),
    fun arrays harrays => (hsame _ _ _).mpr (hagain arrays harrays)⟩

end Retraces

/-- Evaluation can be done again if its parts can. -/
theorem callRules_retraces : CallRules (fun _ => True) fun _ => Retraces where
  pure := .pure
  throw _ _ _ := .throw _
  bind := .bind
  look hsame hf := .get_bind
    (fun m arrays reply output log => hsame m { m.backdrop with arrays, reply, output, log })
    fun m => hf m trivial
  skip _ := .modify fun _ _ _ _ _ => rfl
  -- the same random number is drawn again, since it is drawn from the same one
  draw := .modify fun _ _ _ _ _ => rfl
  arrayFor := .arrayFor
  enter _ _ _ := .onProgram _
  inFunction := .inFunction

/-! ### What an `INPUT` evaluates -/

theorem retraces_target : Retraces target :=
  callRules_retraces.target (.onProgram _) (.onProgram _)

theorem retraces_accept (k : Token.Kind) : Retraces (accept k) :=
  .ofEval (.onProgram _)

theorem retraces_promptText : Retraces promptText := by
  refine .get_bind (fun _ _ _ _ _ => rfl) fun m => ?_
  split
  · refine (Retraces.modify fun _ _ _ _ _ => rfl).bind fun _ =>
      (retraces_accept _).bind fun found => ?_
    cases found with
    | true => exact .pure _
    | false =>
      refine (retraces_accept _).bind fun found => ?_
      cases found with
      | true => exact .pure _
      | false => exact .throw _
  · exact .pure _

theorem retraces_expectStatementEnd : Retraces expectStatementEnd := by
  refine .get_bind (fun _ _ _ _ _ => rfl) fun m => ?_
  dsimp only
  split
  · exact .throw _
  · exact .pure ()

end LineBasic
