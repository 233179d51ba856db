import LineBasic.Proofs.Expr.Append
import LineBasic.Proofs.Machine.Leave

/-!
# Targets as they are written

A target is written as a name, or as a name with subscripts in parentheses. The tokens of a target
say where it ends, whatever comes behind them: so a list of targets that are separated by commas is
taken apart in one way only, and whoever reads a target from a list is then in front of the comma
behind it, or at the end of the list.

## Main definitions

* `Written` — a target as it is written
* `Written.Closed` — its subscripts end with it
* `Written.list` — a list of targets

## Main results

* `Written.read_append` — the subscripts are the same, whatever comes behind the target
* `Machine.concludes_target` — reading a target goes to what comes behind its tokens
-/

namespace LineBasic

/-- A target as it is written. -/
inductive Written where
  /-- A variable. -/
  | scalar (name : Name)
  /-- An array element, with the tokens behind its opening parenthesis. -/
  | element (name : Name) (args : List Token)
deriving DecidableEq

namespace Written

/-- The tokens of a target. -/
def tokens : Written → List Token
  | .scalar name => [.symbol name]
  | .element name args => .symbol name :: .mark .lparen :: args

/-- The name of a target. -/
def name : Written → Name
  | .scalar name => name
  | .element name _ => name

/-- The subscripts of a target are whole and take up all its tokens. -/
def Closed : Written → Prop
  | .scalar _ => True
  | .element _ args => (Arguments.read args).phrase.Whole ∧ (Arguments.read args).rest = []

/-- The tokens of a list of targets. -/
def list (w : Written) (ws : List Written) : List Token :=
  w.tokens ++ ws.flatMap fun v => .mark .comma :: v.tokens

/-- A target that is written like this. -/
def Denotes : Written → Target → Prop
  | .scalar name, t => t = .scalar name
  | .element name _, t => ∃ index, t = .element name index

/-- The last parenthesis of a whole argument list is there. -/
theorem closing_of_whole (args : Arguments) (h : args.Whole) : args.closing = .closed := by
  match args with
  | .last e close => exact h.2
  | .more e rest => exact closing_of_whole rest h.2

/-- The subscripts of a target end with it, whatever comes behind it. -/
theorem read_append {name : Name} {args : List Token} (h : Closed (.element name args))
    (more : List Token) :
    (Arguments.read (args ++ more)).phrase = (Arguments.read args).phrase ∧
      (Arguments.read (args ++ more)).rest = more := by
  have hended : (Arguments.parse args).1.closing ≠ .ended := by
    rw [Arguments.parse, closing_of_whole _ h.1]
    simp
  have hparse := Arguments.parse_append args more hended
  simp only [Arguments.parse, Prod.mk.injEq, h.2, List.nil_append] at hparse
  exact hparse

end Written

namespace Machine

variable {o : Options} {m m' : Machine} {w : Written} {more : List Token}

/-- Moving along the line leaves the tokens over that come further right. -/
theorem Walked.rest_eq (h : m.Walked m') {k : Nat}
    (hindex : m'.program.location.index = m.program.location.index + k) :
    m'.program.rest = m.program.rest.drop k := by
  rw [Program.rest, Program.rest, h.current, hindex, List.drop_drop]

theorem Trod.past {t : Token} {ts : List Token} (h : m.program.rest = t :: ts)
    (ht : t.isInner = true) : m.Trod m.past :=
  .skip (Program.peek?_of_rest h) ht

/-- The tokens of a target say whether it is a variable, and which one. -/
theorem concludes_denotes (hrest : m.program.rest = w.tokens ++ more)
    (hmore : more.head? ≠ some (.mark .lparen)) :
    Concludes (fun t _ => w.Denotes t) (fun _ _ => True) (target m) := by
  cases w with
  | scalar name =>
    rw [target_scalar hrest hmore]
    exact rfl
  | element name args =>
    rw [target_element hrest, bind_apply]
    cases subscripts m.past.past with
    | ok index m' => exact ⟨index, rfl⟩
    | error c m' => trivial

/-- The subscripts of an array element end at its closing parenthesis. -/
theorem concludes_subscripts {name : Name} {args : List Token}
    (hw : (Written.element name args).Closed) (hm : m.Fit m.functions m.callsLeft)
    (hindex : m.program.location.index ≤ m.program.current.length)
    (hrest : m.program.rest = args ++ more) :
    Concludes (fun _ m' => m.Walked m' ∧ m'.program.rest = more) (fun _ m' => m.Walked m')
      (subscripts m) := by
  obtain ⟨-, hbehind⟩ := Written.read_append hw more
  refine (hm.subscripts hindex).mono (fun _ m' h => ⟨h.1, ?_⟩) fun _ _ h => h.1
  have hdrop := h.1.rest_eq h.2
  rw [hrest, ← (Arguments.behind_read _).eq_drop, hbehind] at hdrop
  exact hdrop

/-- Reading a target goes to what comes behind its tokens. -/
theorem concludes_target (hw : w.Closed) (hm : m.Active o)
    (hrest : m.program.rest = w.tokens ++ more) (hmore : more.head? ≠ some (.mark .lparen)) :
    Concludes (fun t m' => (m.Trod m' ∧ m'.program.rest = more) ∧ w.Denotes t) (fun _ _ => True)
      (target m) := by
  have hbehind : Concludes (fun _ m' => m'.program.rest = more) (fun _ _ => True) (target m) := by
    cases w with
    | scalar name =>
      rw [target_scalar hrest hmore]
      exact rest_past hrest
    | element name args =>
      have hname : m.Trod m.past := .past hrest rfl
      have hparen : m.past.Trod m.past.past := .past (rest_past hrest) rfl
      have hactive := (hm.walked hname.toWalked).walked hparen.toWalked
      rw [target_element hrest]
      have hread := concludes_subscripts hw hactive.fit hactive.program.index
        (rest_past (rest_past hrest))
      exact (hread.mono (fun _ _ h => h.2) fun _ _ _ => trivial).bind fun _ _ h => h
  exact (((treads_target o m hm).and hbehind).and (concludes_denotes hrest hmore)).mono
    (fun _ _ h => h) fun _ _ _ => trivial

end Machine

end LineBasic
