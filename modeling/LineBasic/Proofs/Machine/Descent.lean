import LineBasic.Proofs.Machine.Termination
import Mathlib.Data.Prod.Basic
import Mathlib.Logic.Relation
import Mathlib.Order.Nat

/-!
# Why evaluation ends

The functions of the evaluator call each other, and a call of a user function starts them again on
another line. Two numbers decide that this comes to an end: how many more calls of user functions
may be pending, and how many tokens are left on the line. No call makes the first one larger; as
long as it is the same, no call makes the second one larger; and before an expression is evaluated
inside another one, one of the two has become smaller.

## Main definitions

* `Unbounded.Calls` — one such function calls another
* `Unbounded.Descends` — one of the two numbers is smaller

## Main results

* `Unbounded.Calls.lower` — what each call does to the two numbers
* `Machine.step_terminates` — every step ends, and so does every evaluation in it
-/

namespace LineBasic

namespace Unbounded

open Machine

/-- The order in which the functions of the evaluator call each other where no token is taken. -/
def Task.rank : Task → Nat
  | operand => 0
  | operators _ _ => 1
  | value _ => 2
  | arguments | bindings _ _ _ => 3
  | call _ => 4
  | body _ => 5

/-- One function of the evaluator, started on one machine, calls another one on another machine. -/
inductive Calls : Task × Machine → Task × Machine → Prop where
  | operand (level : Nat) (m : Machine) : Calls (.value level, m) (.operand, m)
  | operators {m m₁ : Machine} (level : Nat) {v : Value}
      (hoperand : Task.run .operand m = some (.ok v, m₁)) :
      Calls (.value level, m) (.operators level v, m₁)
  | right {m : Machine} {level : Nat} (v : Value) {t : Token} {op : BinaryOp}
      (ht : m.program.peek? = some t) (hop : BinaryOp.ofToken? t = some op)
      (hlevel : level ≤ op.level) : Calls (.operators level v, m) (.value (op.level + 1), m.past)
  | again {m m₁ : Machine} {level : Nat} {v w x : Value} {t : Token} {op : BinaryOp}
      (ht : m.program.peek? = some t) (hop : BinaryOp.ofToken? t = some op)
      (hlevel : level ≤ op.level)
      (hright : Task.run (.value (op.level + 1)) m.past = some (.ok w, m₁))
      (happly : op.apply v w = .ok x) : Calls (.operators level v, m) (.operators level x, m₁)
  | unary {m : Machine} {t : Token} {op : UnaryOp} (ht : m.program.peek? = some t)
      (hop : UnaryOp.ofToken? t = some op) : Calls (.operand, m) (.operand, m.past)
  | paren {m : Machine} (ht : m.program.peek? = some (.mark .lparen)) :
      Calls (.operand, m) (.value 0, m.past)
  | call {m : Machine} {name : Name} (hname : m.program.peek? = some (.symbol name))
      (hparen : m.past.program.peek? = some (.mark .lparen)) :
      Calls (.operand, m) (.call name, m.past.past)
  | arguments {m : Machine} {name : Name}
      (hname : Builtin.find? name ≠ none ∨ m.functions[name]? = none) :
      Calls (.call name, m) (.arguments, m)
  | bindings {m : Machine} {name : Name} {f : Function} (hname : Builtin.find? name = none)
      (hf : m.functions[name]? = some f) :
      Calls (.call name, m) (.bindings f.firstParam f.otherParams ∅, m)
  | body {m m₁ m₂ : Machine} {name : Name} {f : Function} {params : Bindings}
      (hname : Builtin.find? name = none) (hf : m.functions[name]? = some f)
      (hparams : Task.run (.bindings f.firstParam f.otherParams ∅) m = some (.ok params, m₁))
      (hcall : onProgram (Program.pushFunction params f.body) m₁ = .ok () m₂) :
      Calls (.call name, m) (.body name, m₂)
  | first (m : Machine) : Calls (.arguments, m) (.value 0, m)
  | others {m m₁ : Machine} {v : Value} (hfirst : Task.run (.value 0) m = some (.ok v, m₁))
      (hcomma : m₁.program.peek? = some (.mark .comma)) :
      Calls (.arguments, m) (.arguments, m₁.past)
  | firstBound (p : Name) (ps : List Name) (bound : Bindings) (m : Machine) :
      Calls (.bindings p ps bound, m) (.value 0, m)
  | othersBound {m m₁ : Machine} {v : Value} {p q : Name} {qs : List Name} {bound : Bindings}
      (hfirst : Task.run (.value 0) m = some (.ok v, m₁)) (hfits : v.fits p = true)
      (hcomma : m₁.program.peek? = some (.mark .comma)) :
      Calls (.bindings p (q :: qs) bound, m) (.bindings q qs (bound.insert p v), m₁.past)
  | inside (name : Name) (m : Machine) : Calls (.body name, m) (.value 0, m)

variable {α ε : Type} {F : Std.ExtTreeMap Name Function} {d : Nat} {m m₁ m₂ : Machine}

/-- How many more calls may be pending, and how many tokens are left on the line. -/
def room (m : Machine) : Nat × Nat :=
  (m.callsLeft, m.program.rest.length)

/-- One of the two numbers is smaller, and the first one is not larger. -/
def Descends (m m' : Machine) : Prop :=
  Prod.Lex (· < ·) (· < ·) (room m') (room m)

/-- The two numbers have become smaller, or they are the same and the function that is called comes
earlier in the order. -/
def Below (b a : Task × Machine) : Prop :=
  Prod.Lex (Prod.Lex (· < ·) (· < ·)) (· < ·) (room b.2, b.1.rank) (room a.2, a.1.rank)

theorem wellFounded_below : WellFounded Below :=
  InvImage.wf (fun a : Task × Machine => (room a.2, a.1.rank))
    (Prod.lex (Prod.lex Nat.lt_wfRel Nat.lt_wfRel) Nat.lt_wfRel).wf

theorem below_trans {a b c : Task × Machine} (hcb : Below c b) (hba : Below b a) : Below c a :=
  Prod.Lex.trans hcb hba

theorem ok_of_ofEnding {x : EStateM ε Machine α} {a : α}
    (h : ofEnding x m = some (.ok a, m₁)) : x m = .ok a m₁ := by
  rw [ofEnding] at h
  cases hend : x m with
  | ok b m₂ =>
    rw [hend] at h
    cases h
    rfl
  | error e m₂ =>
    rw [hend] at h
    cases h

/-- `b` is started on a machine on which evaluation works, and below `a`. -/
def Lower (F : Std.ExtTreeMap Name Function) (b a : Task × Machine) : Prop :=
  (∃ d, b.2.Placed F d) ∧ Below b a

namespace Lower

/-- Behind tokens, with as many calls pending. -/
theorem onward (h : m.Placed F d)
    (h₁ : m₁.Placed F d ∧ m₁.program.rest.length < m.program.rest.length) (t t' : Task) :
    Lower F (t', m₁) (t, m) := by
  refine ⟨⟨d, h₁.1⟩, .left _ _ ?_⟩
  rw [room, room, h.fit.callsLeft, h₁.1.fit.callsLeft]
  exact .right _ h₁.2

/-- In the same place, with a function that comes earlier in the order. -/
theorem here (h : m.Placed F d) {t t' : Task} (hrank : t'.rank < t.rank) :
    Lower F (t', m) (t, m) :=
  ⟨⟨d, h⟩, .right _ hrank⟩

/-- Inside a user function, where one call less may be pending. -/
theorem inside (h : m.Placed F (d + 1)) (h₁ : m₁.Placed F d) (t t' : Task) :
    Lower F (t', m₁) (t, m) := by
  refine ⟨⟨d, h₁⟩, .left _ _ ?_⟩
  rw [room, room, h.fit.callsLeft, h₁.fit.callsLeft]
  exact .left _ _ (Nat.lt_succ_self d)

end Lower

/-- Taking a token leaves fewer of them. -/
theorem taken (h : m.Placed F d) {t : Token} (ht : m.program.peek? = some t) :
    m.past.Placed F d ∧ m.past.program.rest.length < m.program.rest.length := by
  have hlt := rest_past_lt ht
  rw [Program.peek?_eq_head?] at ht
  obtain ⟨ts, hrest⟩ := List.head?_eq_some_iff.mp ht
  exact ⟨(h.past hrest).1, hlt⟩

/-- So does an expression that has a value. -/
theorem valued (h : m.Placed F d) {level : Nat} {v : Value}
    (hvalue : Task.run (.value level) m = some (.ok v, m₁)) :
    m₁.Placed F d ∧ m₁.program.rest.length < m.program.rest.length := by
  rw [value_eq h] at hvalue
  obtain ⟨hm₁, -, hlt⟩ := h.value (ok_of_ofEnding hvalue)
  exact ⟨hm₁, hlt⟩

/-- What each call does to the two numbers. -/
theorem Calls.lower {a b : Task × Machine} (h : Calls a b) (ha : a.2.Placed F d) :
    Lower F b a := by
  have hthen : ∀ {m m₁ m₂ : Machine},
      m₁.Placed F d ∧ m₁.program.rest.length < m.program.rest.length →
      m₂.Placed F d ∧ m₂.program.rest.length < m₁.program.rest.length →
      m₂.Placed F d ∧ m₂.program.rest.length < m.program.rest.length :=
    fun h₁ h₂ => ⟨h₂.1, Nat.lt_trans h₂.2 h₁.2⟩
  cases h with
  | operand level m => exact .here ha Nat.zero_lt_two
  | operators level hoperand =>
    rw [operand_eq ha] at hoperand
    obtain ⟨hm₁, -, hlt⟩ := ha.operand (ok_of_ofEnding hoperand)
    exact .onward ha ⟨hm₁, hlt⟩ _ _
  | right v ht hop hlevel => exact .onward ha (taken ha ht) _ _
  | again ht hop hlevel hright happly =>
    have htaken := taken ha ht
    exact .onward ha (hthen htaken (valued htaken.1 hright)) _ _
  | unary ht hop => exact .onward ha (taken ha ht) _ _
  | paren ht => exact .onward ha (taken ha ht) _ _
  | call hname hparen =>
    have htaken := taken ha hname
    exact .onward ha (hthen htaken (taken htaken.1 hparen)) _ _
  | arguments hname => exact .here ha (Nat.lt_succ_self 3)
  | bindings hname hf => exact .here ha (Nat.lt_succ_self 3)
  | body hname hf hparams hcall =>
    rw [bindings_eq ha] at hparams
    obtain ⟨hm₁, -⟩ := ha.walks (Walks.bound (returns_bodyAt d) _ _ _ _)
      (Arguments.width_read_le _) (ok_of_ofEnding hparams)
    rw [ha.fit.functions] at hf
    cases d with
    | zero =>
      rw [pushFunction_overflow hm₁.fit.callsLeft] at hcall
      cases hcall
    | succ d =>
      obtain ⟨tokens, htokens, hindex⟩ := hm₁.fit.bodies _ _ hf
      rw [pushFunction_inside hm₁.fit.callsLeft _ htokens hindex] at hcall
      cases hcall
      exact .inside ha (hm₁.inside htokens hindex _) _ _
  | first m => exact .here ha (by decide)
  | others hfirst hcomma =>
    have hvalued := valued ha hfirst
    exact .onward ha (hthen hvalued (taken hvalued.1 hcomma)) _ _
  | firstBound p ps bound m => exact .here ha (Nat.lt_succ_self 2)
  | othersBound hfirst hfits hcomma =>
    have hvalued := valued ha hfirst
    exact .onward ha (hthen hvalued (taken hvalued.1 hcomma)) _ _
  | inside name m => exact .here ha (show 2 < 5 by decide)

/-- Every call of an evaluation is made on a machine on which evaluation works. -/
theorem placed_of_calls {a b : Task × Machine} (h : Relation.ReflTransGen Calls a b)
    (ha : ∃ d, a.2.Placed F d) : ∃ d, b.2.Placed F d := by
  induction h with
  | refl => exact ha
  | tail _ hcall ih =>
    obtain ⟨d, hplaced⟩ := ih
    exact (hcall.lower hplaced).1

/-- Calls that follow each other lead further and further down. -/
theorem below_of_calls {a b : Task × Machine} (h : Relation.TransGen Calls a b)
    (ha : a.2.Placed F d) : Below b a := by
  induction h with
  | single hcall => exact (hcall.lower ha).2
  | tail hcalls hcall ih =>
    obtain ⟨d', hplaced⟩ := placed_of_calls hcalls.to_reflTransGen ⟨d, ha⟩
    exact below_trans (hcall.lower hplaced).2 ih

/-- The calls of an evaluation do not go on for ever. -/
theorem acc_of_placed {a : Task × Machine} (ha : ∃ d, a.2.Placed F d) : Acc (flip Calls) a := by
  induction a using wellFounded_below.induction with
  | _ a ih =>
    obtain ⟨d, hplaced⟩ := ha
    exact .intro a fun b hcall => ih b (hcall.lower hplaced).2 (hcall.lower hplaced).1

/-- Before an expression is evaluated inside another one, one of the two numbers has become smaller.
-/
theorem descends_of_calls {level level' : Nat}
    (h : Relation.TransGen Calls (.value level, m) (.value level', m₁)) (hm : m.Placed F d) :
    Descends m m₁ := by
  have hbelow := below_of_calls h hm
  rcases Prod.lex_def.mp hbelow with hlt | ⟨-, hrank⟩
  · exact hlt
  · exact (Nat.lt_irrefl 2 hrank).elim

end Unbounded

namespace Machine

open Unbounded

variable {o : Options} {m s : Machine}

/-- In the middle of a step, evaluation works. -/
theorem MidStep.placed (h : m.MidStep s) (hm : m.Sound o) : s.Placed s.functions s.callsLeft :=
  ⟨h.fit hm, h.index⟩

/-- A step without bounds on its evaluation and its loops ends, as the step of the machine does.
Wherever in it an expression is evaluated, the evaluation ends, and its calls do not go on for ever:
before an expression is evaluated inside another one, fewer calls of user functions may be pending,
or as many, and fewer tokens are left on the line. -/
theorem step_terminates (h : Reachable o m) :
    Unbounded.step m = some m.step ∧
      ∀ s, m.state = .running → m.ComesBy s →
        Unbounded.expression s = ofEnding expression s ∧
          Task.run .arguments s = ofEnding
            (evalArguments (bodyAt s.callsLeft) (Arguments.read s.program.rest).phrase) s ∧
          ∀ t, Acc (flip Calls) (t, s) ∧
            ∀ level level' m₁ m₂, Relation.ReflTransGen Calls (t, s) (.value level, m₁) →
              Relation.TransGen Calls (.value level, m₁) (.value level', m₂) →
                Descends m₁ m₂ := by
  refine ⟨Unbounded.step_eq h.sound, fun s hrunning hs => ?_⟩
  have hplaced := (hs.midStep h.sound hrunning).placed h.sound
  refine ⟨value_eq hplaced 0, arguments_eq hplaced, fun t => ⟨acc_of_placed ⟨_, hplaced⟩, ?_⟩⟩
  intro level level' m₁ m₂ hcalls hinner
  obtain ⟨d, hm₁⟩ := placed_of_calls hcalls ⟨_, hplaced⟩
  exact descends_of_calls hinner hm₁

/-- Here a `PRINT` is about to call a function that calls itself, and the body of the function is
longer than the rest of the line behind the `PRINT`. -/
theorem step_terminates_recursion :
    ∃ m s, Reachable {} m ∧ m.state = .running ∧ m.ComesBy s ∧
      s.functions.contains (utf8 "FNA") = true ∧
      s.program.rest = [.symbol (utf8 "FNA"), .mark .lparen, .number 2, .mark .rparen] ∧
      Unbounded.step m = some m.step ∧ Unbounded.expression s = ofEnding expression s := by
  have h : Reachable {} ((((new {}).perform
      (.submit (utf8 "10 DEF FNA(X)=FNA(X)+X*2+1:PRINT FNA(2)"))).perform
        (.submit (utf8 "RUN"))).perform .step) := .perform _ (.perform _ (.perform _ .start))
  have hread : (Token.read
      (Bytes.trimLineEnds (utf8 "10 DEF FNA(X)=FNA(X)+X*2+1:PRINT FNA(2)"))).map numbered? =
      .ok (some (10, [.keyword .DEF, .symbol (utf8 "FNA"), .mark .lparen, .symbol (utf8 "X"),
        .mark .rparen, .mark .equal, .symbol (utf8 "FNA"), .mark .lparen, .symbol (utf8 "X"),
        .mark .rparen, .mark .plus, .symbol (utf8 "X"), .mark .star, .number 2, .mark .plus,
        .number 1, .mark .colon, .keyword .PRINT, .symbol (utf8 "FNA"), .mark .lparen, .number 2,
        .mark .rparen])) := by
    decide +kernel
  rw [perform_numbered (by decide +kernel) (by decide +kernel) hread,
    perform_run (by decide +kernel) (startAtFirst?_singleton rfl)] at h
  generalize hm : Machine.perform _ .step = m at h
  have hrunning : m.state = .running := by
    subst hm
    decide +kernel
  have hcomes : m.ComesBy m.announce.atStatement.past := by
    refine comesBy_print hrunning ?_ ?_ ?_ ?_
    · subst hm; decide +kernel
    · subst hm; decide +kernel
    · have hpeek : m.announce.atStatement.past.program.peek? = some (.symbol (utf8 "FNA")) := by
        subst hm
        decide +kernel
      rintro (hseparator | hseparator) <;> rw [hpeek] at hseparator <;> cases hseparator
    · subst hm; decide +kernel
  have hends := step_terminates h
  refine ⟨m, m.announce.atStatement.past, h, hrunning, hcomes, ?_, ?_, hends.1,
    (hends.2 _ hrunning hcomes).1⟩
  · subst hm; decide +kernel
  · subst hm; decide +kernel

end Machine

end LineBasic
