import LineBasic.Proofs.Machine.Consistency
import LineBasic.Proofs.Machine.RememberOperation

/-!
# Calls and loops that are pending

A call that is pending returns to the place behind its `GOSUB`, and a loop goes on behind its `FOR`.
A host may store lines while calls and loops are pending, after a break or after the end of a run,
and storing a line leaves them as they are. So a place is as it should be unless its line was stored
while the call or loop was pending. After that nothing is known of the place: `RETURN` and `NEXT` go
to wherever the old place is in the new line, or fail if the line is gone.

## Main definitions

* `Operation.isSingle` — the operations that are no bounded run
* `Machine.EditedSince` — a line was stored at a time when something held, which has held ever since
* `Machine.ShownOrEdited` — the places of pending things are as they should be, up to edits

## Main results

* `Machine.ShownOrEdited.perform` — a single operation keeps the places in order
* `Machine.Reachable.shown_or_edited` — one kind of pending things
* `Machine.pending_calls_and_loops` — calls and loops
-/

namespace LineBasic

/-! ### The ends of lines -/

theorem Spans.le {tokens : List Token} {t : Token} {k i : Nat} (h : Spans tokens (k + 1) i)
    (hk : tokens[k]? = some t) : i ≤ tokens.length := by
  obtain ⟨hlt, -⟩ := List.getElem?_eq_some_iff.mp hk
  have hwidth := Expr.width_read_le (tokens.drop (k + 1))
  rw [List.length_drop] at hwidth
  have hi := h.2
  omega

theorem EndsGosub.le {tokens : List Token} {i : Nat} (h : EndsGosub tokens i) :
    i ≤ tokens.length := by
  obtain ⟨k, hkeyword, hspans⟩ := h
  exact hspans.le hkeyword

theorem EndsFor.le {tokens : List Token} {i : Nat} (h : EndsFor tokens i) : i ≤ tokens.length := by
  obtain ⟨k, name, a, b, -, -, -, -, hto, hlimit, rfl | ⟨hstep, hspans⟩, -⟩ := h
  · exact hlimit.le hto
  · exact hspans.le hstep

/-- Whether an operation is a single one. A bounded run is not: it is made of steps and
interruptions. -/
def Operation.isSingle : Operation → Bool
  | .runSteps _ _ => false
  | _ => true

namespace Machine

variable {o : Options} {m : Machine} {α : Type}

/-- The line `n` was stored, or deleted, while something held of the machine, and it has held ever
since, between any two steps of a bounded run as well. -/
inductive EditedSince (o : Options) (Held : Machine → Prop) (n : Nat) : Machine → Prop where
  | stored {m : Machine} {line : Bytes} {tokens : List Token} (hm : Reachable o m) (hheld : Held m)
      (hstopped : m.Stopped) (hstores : Stores line n tokens) :
      EditedSince o Held n (m.perform (.submit line))
  | perform {m : Machine} (op : Operation) (hsingle : op.isSingle)
      (hedited : EditedSince o Held n m) (hheld : Held m) : EditedSince o Held n (m.perform op)

section Pending

variable (stack : Program → List α) (place : α → Location) (P : List Token → Nat → Prop)

/-- Each place on a numbered line shows what it should, unless the line was stored while the thing
with this place was pending. -/
def ShownOrEdited (o : Options) (m : Machine) : Prop :=
  ∀ x ∈ stack m.program, ∀ n, (place x).line = .numbered n →
    m.program.Shows P (place x) ∨ EditedSince o (fun m => x ∈ stack m.program) n m

variable {stack place P}

/-- A single operation keeps the places in order, if those it does not show are old or on the
immediate line. -/
theorem ShownOrEdited.perform (hstore : ∀ p n tokens, stack (p.store n tokens) = stack p)
    (hkept : ∀ m m' : Machine, m.Remembered m' → ∀ x ∈ stack m'.program,
      x ∈ stack m.program ∨ (place x).line = .immediate ∨ m.program.Shows P (place x))
    (hm : Reachable o m) (op : Operation) (hsingle : op.isSingle)
    (h : ShownOrEdited stack place P o m) : ShownOrEdited stack place P o (m.perform op) := by
  intro x hx n hn
  rcases hm.perform_remembered op with hremembered | ⟨line, k, tokens, rfl, hstopped, hstores,
    hstored⟩
  · rcases hkept _ _ hremembered x hx with hold | himmediate | hshows
    · refine (h x hold n hn).imp ?_ ?_
      · intro hshows
        exact hshows.congr hremembered.lines
      · intro hedited
        exact hedited.perform op hsingle hold
    · rw [hn] at himmediate
      cases himmediate
    · exact .inl (hshows.congr hremembered.lines)
  · have hprogram : (m.perform (.submit line)).program = m.program.store k tokens := by
      rw [hstored, enter_program]
      rfl
    have hold : x ∈ stack m.program := by
      rw [hprogram, hstore] at hx
      exact hx
    by_cases hk : k = n
    · subst hk
      exact .inr (.stored hm hold hstopped hstores)
    · rcases h x hold n hn with ⟨j, ts, hline, hts, hshows⟩ | hedited
      · have hj : k ≠ j := by
          rintro rfl
          exact hk (Line.numbered.inj (hline.symm.trans hn))
        refine .inl ⟨j, ts, hline, ?_, hshows⟩
        rw [hprogram, Program.getElem?_store_of_ne _ _ hj]
        exact hts
      · exact .inr (hedited.perform _ hsingle hold)

variable (stack place P)

/-- What is pending of one kind: the place of each thing shows what it should, unless the line was
stored while the thing was pending. -/
theorem Reachable.shown_or_edited (hnew : ∀ o, stack (new o).program = [])
    (hstore : ∀ p n tokens, stack (p.store n tokens) = stack p)
    (hkept : ∀ m m' : Machine, m.Remembered m' → ∀ x ∈ stack m'.program,
      x ∈ stack m.program ∨ (place x).line = .immediate ∨ m.program.Shows P (place x))
    (h : Reachable o m) : ShownOrEdited stack place P o m := by
  refine h.induction ?_ (fun _ line hm => .perform hstore hkept hm (.submit line) rfl)
    (fun _ hm => .perform hstore hkept hm .step rfl)
    (fun _ text hm => .perform hstore hkept hm (.provideInput text) rfl)
    (fun _ hm => .perform hstore hkept hm .interrupt rfl)
    (fun _ hm => .perform hstore hkept hm .takeOutput rfl)
  intro x hx
  rw [hnew] at hx
  cases hx

end Pending

/-- A place on the line is gone to as it is. -/
theorem moveTo?_of_shows {p : Program} {P : List Token → Nat → Prop} {loc : Location}
    (h : p.Shows P loc) (hP : ∀ tokens i, P tokens i → i ≤ tokens.length) :
    ∃ q, p.moveTo? loc = some q ∧ q.location = loc := by
  obtain ⟨n, tokens, hline, htokens, hshows⟩ := h
  have hstored : p.tokensOf? loc.line = some tokens := by
    rw [hline]
    exact htokens
  exact ⟨_, Program.moveTo?_eq hstored (hP _ _ hshows), rfl⟩

/-- A pending call that goes back to a numbered line returns to the place behind a `GOSUB` of the
line as it is stored now, and a pending loop goes on behind a `FOR`, unless the line was stored at a
time when the call or loop was pending already. Where the `GOSUB` or `FOR` is still in front of the
place, `RETURN` and `NEXT` go exactly there. -/
theorem pending_calls_and_loops (h : Reachable o m) :
    (∀ f ∈ m.program.calls, ∀ n, f.ret.line = .numbered n →
      (m.program.Shows EndsGosub f.ret ∧
          ∃ q, m.program.moveTo? f.ret = some q ∧ q.location = f.ret) ∨
        EditedSince o (fun m => f ∈ m.program.calls) n m) ∧
    ∀ l ∈ m.program.loops, ∀ n, l.resume.line = .numbered n →
      (m.program.Shows EndsFor l.resume ∧
          ∃ q, m.program.moveTo? l.resume = some q ∧ q.location = l.resume) ∨
        EditedSince o (fun m => l ∈ m.program.loops) n m := by
  constructor
  · intro f hf n hn
    refine (h.shown_or_edited Program.calls Frame.ret EndsGosub (fun _ => rfl)
      (fun _ _ _ => rfl) (fun _ _ hkept => hkept.calls) f hf n hn).imp_left ?_
    intro hshows
    exact ⟨hshows, moveTo?_of_shows hshows fun _ _ => EndsGosub.le⟩
  · intro l hl n hn
    refine (h.shown_or_edited Program.loops Loop.resume EndsFor (fun _ => rfl)
      (fun _ _ _ => rfl) (fun _ _ hkept => hkept.loops) l hl n hn).imp_left ?_
    intro hshows
    exact ⟨hshows, moveTo?_of_shows hshows fun _ _ => EndsFor.le⟩

/-! ### A call whose line is deleted -/

/-- The tokens of `GOSUB 10`. -/
def callingLine : List Token :=
  [.keyword .GOSUB, .number 10]

/-- A program that has this line only, number 10, starts running. -/
def callingRun : Machine :=
  let m := ((new {}).storeLine 10 callingLine).enter .idle
  { (m.record (.command (utf8 "RUN"))).clear with
    program :=
      { m.program.reset with
        location := (Line.numbered 10).start
        current := callingLine } }.enter .running

/-- The first call is pending. -/
def called : Machine :=
  { callingRun.announce.atStatement with
    program :=
      { callingRun.program with
        calls := [.gosub ⟨.numbered 10, 2⟩]
        jumped := true } }

theorem step_callingRun : callingRun.step = (none, called) := by
  have hvalue : expression callingRun.announce.atStatement.past =
      .ok (.num 10) callingRun.announce.atStatement.past.past :=
    expression_number rfl (nofun : ∀ t ∈ ([] : List Token).head?, BinaryOp.ofToken? t = none)
  have hnumber : numberExpression callingRun.announce.atStatement.past =
      .ok 10 callingRun.announce.atStatement.past.past := by
    rw [numberExpression, bind_apply, hvalue]
    rfl
  have hline : Number.lineNumber 10 = .ok 10 := by decide +kernel
  have hstatement : statement 2 callingRun.announce.atStatement =
      ofEval (onProgram (Program.gosub 10)) callingRun.announce.atStatement.past.past := by
    change (ofEval numberExpression >>= _) callingRun.announce.atStatement.past = _
    rw [bind_apply, ofEval, hnumber]
    dsimp only
    rw [bind_apply, hline]
    rfl
  have hexecute : execute callingRun.announce = .ok () called := by
    have hlength : callingRun.announce.atStatement.program.rest.length = 2 := rfl
    rw [execute_apply, if_neg (by decide +kernel), bind_apply, hlength, hstatement]
    rfl
  rw [step, if_neg (by decide), toStatement?_eq (t := .keyword .GOSUB) rfl]
  dsimp only
  rw [hexecute]
  rfl

theorem reachable_callingRun : Reachable {} callingRun := by
  have hread : (Token.read (Bytes.trimLineEnds (utf8 "10 GOSUB 10"))).map numbered? =
      .ok (some (10, callingLine)) := by decide +kernel
  have h : Reachable {} (((new {}).perform (.submit (utf8 "10 GOSUB 10"))).perform
      (.submit (utf8 "RUN"))) := .perform _ (.perform _ .start)
  rw [perform_numbered (by decide +kernel) (by decide +kernel) hread,
    perform_run (by decide +kernel) (startAtFirst?_singleton rfl)] at h
  exact h

/-- Here the line of a pending `GOSUB` was deleted, and the call is still pending. -/
theorem pending_calls_and_loops_deleted :
    ∃ m f, Reachable {} m ∧ f ∈ m.program.calls ∧ f.ret = ⟨.numbered 10, 2⟩ ∧
      m.program.hasLine 10 = false ∧
      EditedSince {} (fun m => f ∈ m.program.calls) 10 m := by
  have hcalled : Reachable {} called := by
    have h := reachable_callingRun.perform .step
    rw [perform, step_callingRun] at h
    exact h
  have h := (hcalled.perform .interrupt).perform (.submit (utf8 "10"))
  have hread : (Token.read (Bytes.trimLineEnds (utf8 "10"))).map numbered? =
      .ok (some (10, [])) := by decide +kernel
  have hcalls : ((called.perform .interrupt).perform (.submit (utf8 "10"))).program.calls =
      [.gosub ⟨.numbered 10, 2⟩] := by
    rw [perform_numbered (by decide +kernel) (by decide +kernel) hread]
    rfl
  have hgone : ((called.perform .interrupt).perform (.submit (utf8 "10"))).program.hasLine 10 =
      false := by decide +kernel
  generalize (called.perform .interrupt).perform (.submit (utf8 "10")) = m at h hcalls hgone
  have hf : Frame.gosub ⟨.numbered 10, 2⟩ ∈ m.program.calls := by
    rw [hcalls]
    exact List.mem_singleton_self _
  refine ⟨m, _, h, hf, rfl, hgone, ?_⟩
  rcases (pending_calls_and_loops h).1 _ hf 10 rfl with ⟨⟨n, tokens, hn, htokens, -⟩, -⟩ | hedited
  · obtain rfl : 10 = n := Line.numbered.inj hn
    rw [Program.hasLine, Std.ExtTreeMap.contains_eq_isSome_getElem?, htokens] at hgone
    cases hgone
  · exact hedited

end Machine

end LineBasic
