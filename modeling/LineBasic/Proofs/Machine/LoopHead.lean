import LineBasic.Proofs.Machine.Advance
import LineBasic.Proofs.Expr.Refinement
import LineBasic.Proofs.Number.Value

/-!
# The head of a loop

A `FOR` reads its variable, where the loop starts and ends, and its step, and then it must be at its
end. Only then is anything changed. Where start, limit and step are written as integers, with a
minus sign in front of them or without one, the numbers that are read stand for these integers.

## Main definitions

* `Machine.loopTerms` — reading the head of a loop
* `Machine.Opens` — the `FOR` that is executed next has integers as its start, limit and step
* `integer` — an integer as it is written

## Main results

* `Machine.forStatement_eq` — a `FOR` reads its head first
* `Machine.treads_loopTerms`, `Machine.ends_of_loopTerms` — the head takes up the statement
* `Machine.loopTerms_integers` — a loop whose head is written with integers
-/

namespace LineBasic

/-- An integer as it is written. -/
def integer (i : Int) : Tree :=
  if i < 0 then .unary .minus (.number (Number.ofInt (-i))) else .number (Number.ofInt i)

/-- What the head of a loop is written as, behind its keyword. -/
def integerHead (name : Name) (a b s : Int) : List Token :=
  .symbol name :: .mark .equal :: ((integer a).tokens ++ .keyword .TO :: ((integer b).tokens ++
    .keyword .STEP :: (integer s).tokens))

namespace Machine

variable {o : Options} {m m' : Machine}

/-- What the head of a loop says. -/
structure Terms where
  name : Name
  start : Float
  limit : Float
  step : Float

/-- Reads the head of a loop. -/
def loopTerms : Exec Terms := do
  let name ← nextName
  if name.isString then fail .typeMismatch
  expect (.mark .equal)
  let start ← numberExpression
  expect (.keyword .TO)
  let limit ← numberExpression
  let step ← if ← accept (.keyword .STEP) then ofEval numberExpression else pure 1
  expectStatementEnd
  return ⟨name, start, limit, step⟩

theorem forStatement_eq : forStatement = (do
    let t ← loopTerms
    setVariable t.name (.num t.start)
    Program.startLoop t.name t.limit t.step) := by
  rw [forStatement, loopTerms, bind_assoc]
  refine bind_congr fun name => ?_
  split
  · rfl
  · simp only [bind_assoc]
    refine bind_congr fun _ => bind_congr fun start => bind_congr fun _ => bind_congr fun limit =>
      bind_congr fun found => ?_
    split <;> simp only [bind_assoc, pure_bind]

theorem treads_loopTerms : Treads Stop.IsFault loopTerms := by
  refine treads_nextName.ofEval.bind fun name => ?_
  dsimp only
  split
  · exact .fail _
  · refine (treads_expect rfl).ofEval.bind fun _ => ?_
    refine treads_numberExpression.ofEval.bind fun start => ?_
    refine (treads_expect rfl).ofEval.bind fun _ => ?_
    refine treads_numberExpression.ofEval.bind fun limit => ?_
    refine (treads_accept rfl).ofEval.bind fun found => ?_
    have hend : ∀ step, Treads Stop.IsFault (do
        expectStatementEnd
        return ⟨name, start, limit, step⟩ : Exec Terms) := fun step =>
      readRules_treads.expectStatementEnd.bind fun _ => .pure _
    cases found with
    | true => exact treads_numberExpression.ofEval.bind hend
    | false => exact hend 1

theorem ends_of_expectStatementEnd (h : expectStatementEnd m = .ok () m') :
    ∀ u ∈ m'.program.rest.head?, u.endsStatement = true := by
  rw [expectStatementEnd, get_bind_apply] at h
  split at h
  · cases h
  · next hend =>
    cases h
    intro u hu
    rw [← Program.peek?_eq_head?] at hu
    rw [Bool.not_eq_true, Bool.not_eq_false', Program.atStatementEnd, hu] at hend
    exact hend

/-- Behind the head of a loop the statement ends. -/
theorem ends_of_loopTerms {t : Terms} (h : loopTerms m = .ok t m') :
    ∀ u ∈ m'.program.rest.head?, u.endsStatement = true := by
  rw [loopTerms] at h
  obtain ⟨name, m₁, -, h⟩ := bind_eq_ok h
  split at h
  · cases h
  · obtain ⟨_, m₂, -, h⟩ := bind_eq_ok h
    obtain ⟨start, m₃, -, h⟩ := bind_eq_ok h
    obtain ⟨_, m₄, -, h⟩ := bind_eq_ok h
    obtain ⟨limit, m₅, -, h⟩ := bind_eq_ok h
    obtain ⟨found, m₆, -, h⟩ := bind_eq_ok h
    have hlast : ∀ step n, (do
        expectStatementEnd
        return ⟨name, start, limit, step⟩ : Exec Terms) n = .ok t m' →
        ∀ u ∈ m'.program.rest.head?, u.endsStatement = true := by
      intro step n hn
      obtain ⟨_, n', hend, hn⟩ := bind_eq_ok hn
      cases hn
      exact ends_of_expectStatementEnd hend
    cases found with
    | true =>
      obtain ⟨step, m₇, -, h⟩ := bind_eq_ok h
      exact hlast step m₇ h
    | false => exact hlast 1 m₆ h

/-- The `FOR` that is executed next is over the variable `name`, from `a` to `b` in steps of `s`. -/
def Opens (m : Machine) (name : Name) (a b s : Int) : Prop :=
  ∃ n t m', m.upcoming? = some n ∧ loopTerms n.past = .ok t m' ∧ t.name = name ∧
    Number.Is t.start a ∧ Number.Is t.limit b ∧ Number.Is t.step s

/-! ### Integers -/

/-- Integers of at most 53 bits are read as themselves. -/
theorem numberExpression_integer {i : Int} {ts : List Token}
    (hrest : m.program.rest = (integer i).tokens ++ ts)
    (hts : ∀ t ∈ ts.head?, BinaryOp.ofToken? t = none ∧ t ≠ .mark .lparen)
    (hmax : i.natAbs ≤ 2 ^ 53) :
    ∃ x m', numberExpression m = .ok x m' ∧ Number.Is x i ∧ m'.program.rest = ts := by
  have hread : Expr.read m.program.rest = (integer i).exprAt 0 := by
    rw [hrest]
    exact Tree.read_tokens fun t ht => ⟨(hts t ht).1, fun heq => absurd heq (hts t ht).2⟩
  have hvalue : ∃ x, expression m = .ok (.num x) (m.moved (integer i).tokens.length) ∧
      Number.Is x i := by
    rw [expression, get_bind_apply, hread, integer]
    split
    · next hneg =>
      have hopposite := Number.is_neg (Number.is_ofInt (i := -i) (by omega))
      rw [Int.neg_neg] at hopposite
      exact ⟨-Number.ofInt (-i), rfl, hopposite⟩
    · exact ⟨Number.ofInt i, rfl, Number.is_ofInt hmax⟩
  obtain ⟨x, hx, hi⟩ := hvalue
  refine ⟨x, m.moved (integer i).tokens.length, ?_, hi, ?_⟩
  · rw [numberExpression, bind_apply, hx]
    rfl
  · rw [moved, Program.rest_skip, hrest, List.drop_left]

/-- The head of a loop that is written with integers is read as these integers. -/
theorem loopTerms_integers {name : Name} {a b s : Int} {more : List Token}
    (hname : name.isString = false)
    (hrest : m.program.rest = integerHead name a b s ++ .mark .colon :: more)
    (ha : a.natAbs ≤ 2 ^ 53) (hb : b.natAbs ≤ 2 ^ 53) (hs : s.natAbs ≤ 2 ^ 53) :
    ∃ t m', loopTerms m = .ok t m' ∧ t.name = name ∧ Number.Is t.start a ∧ Number.Is t.limit b ∧
      Number.Is t.step s := by
  simp only [integerHead, List.cons_append, List.append_assoc] at hrest
  have hequal := rest_past hrest
  obtain ⟨start, m₁, hstart, hia, hto⟩ := numberExpression_integer (rest_past hequal)
    (by rintro t ⟨⟩; exact ⟨rfl, nofun⟩) ha
  obtain ⟨limit, m₂, hlimit, hib, hstep⟩ := numberExpression_integer (rest_past hto)
    (by rintro t ⟨⟩; exact ⟨rfl, nofun⟩) hb
  obtain ⟨step, m₃, hvalue, his, hcolon⟩ := numberExpression_integer (rest_past hstep)
    (by rintro t ⟨⟩; exact ⟨rfl, nofun⟩) hs
  have hfound : m₂.program.peekKind? = some (.keyword .STEP) := by
    rw [Program.peekKind?, Program.peek?_of_rest hstep]
    rfl
  have hend : expectStatementEnd m₃ = .ok () m₃ := by
    rw [expectStatementEnd, get_bind_apply]
    simp only [Program.atStatementEnd, Program.peek?_of_rest hcolon]
    rfl
  refine ⟨⟨name, start, limit, step⟩, m₃, ?_, rfl, hia, hib, his⟩
  have hnumber : ∀ {n n' : Machine} {x : Float}, numberExpression n = .ok x n' →
      ofEval numberExpression n = .ok x n' := fun h => by rw [ofEval, h]
  have hnext : nextName m = .ok name m.past := by rw [nextName, ofEval, nextName_of_rest hrest]
  have hpastEqual : expect (.mark .equal) m.past = .ok () m.past.past := expect_of_rest hequal rfl
  have hpastTo : expect (.keyword .TO) m₁ = .ok () m₁.past := expect_of_rest hto rfl
  rw [loopTerms, bind_apply, hnext]
  dsimp only
  rw [hname, if_neg Bool.false_ne_true, bind_apply, hpastEqual]
  change (ofEval numberExpression >>= _) m.past.past = _
  rw [bind_apply, hnumber hstart]
  dsimp only
  rw [bind_apply, hpastTo]
  change (ofEval numberExpression >>= _) m₁.past = _
  rw [bind_apply, hnumber hlimit]
  dsimp only
  rw [bind_apply, accept_apply, if_pos hfound]
  change (ofEval numberExpression >>= _) m₂.past = _
  rw [bind_apply, hnumber hvalue]
  dsimp only
  rw [bind_apply, hend]
  rfl

end Machine

end LineBasic
