import LineBasic.Expr.Basic

/-!
# Reading expressions

Operators of higher level bind more tightly and all associate to the left. Reading at a level takes
one operand, and then as many operators of that level or a higher one as follow; the right operand
of each is read one level up.

Every function hands back the tokens it has not read together with the fact that they are no more
than it was given, which is what makes the recursion end.

## Main definitions

* `Expr.Parsed` — a phrase, and the tokens after it
* `Expr.read` — the expression that a list of tokens starts with
* `Arguments.read` — the argument list that a list of tokens starts with
-/

namespace LineBasic

/-- A phrase read from `tokens`, and the tokens after it. -/
structure Expr.Parsed (α : Type) (tokens : List Token) where
  phrase : α
  rest : List Token
  rest_le : rest.length ≤ tokens.length

mutual

/-- Reads an expression whose operators have at least the given level. -/
def Expr.readAt (level : Nat) (tokens : List Token) : Expr.Parsed Expr tokens :=
  let left := Expr.readOperand tokens
  let whole := Expr.readOperators level left.phrase left.rest
  ⟨whole.phrase, whole.rest, Nat.le_trans whole.rest_le left.rest_le⟩
termination_by (tokens.length, 2)
decreasing_by
  · exact Prod.Lex.right _ (by omega)
  · rcases Nat.lt_or_eq_of_le left.rest_le with h | h
    · exact Prod.Lex.left _ _ h
    · rw [h]; exact Prod.Lex.right _ (by omega)

/-- Goes on with an expression after its left operand. -/
def Expr.readOperators (level : Nat) (left : Expr) (tokens : List Token) :
    Expr.Parsed Expr tokens :=
  match tokens with
  | [] => ⟨left, [], Nat.le_refl _⟩
  | t :: rest =>
    match BinaryOp.ofToken? t with
    | none => ⟨left, t :: rest, Nat.le_refl _⟩
    | some op =>
      if level ≤ op.level then
        let right := Expr.readAt (op.level + 1) rest
        let whole := Expr.readOperators level (.binary op left right.phrase) right.rest
        ⟨whole.phrase, whole.rest,
          Nat.le_succ_of_le (Nat.le_trans whole.rest_le right.rest_le)⟩
      else ⟨left, t :: rest, Nat.le_refl _⟩
termination_by (tokens.length, 1)
decreasing_by
  · exact Prod.Lex.left _ _ (by simp)
  · exact Prod.Lex.left _ _ (Nat.lt_succ_of_le right.rest_le)

/-- Reads an operand with the operators in front of it. -/
def Expr.readOperand (tokens : List Token) : Expr.Parsed Expr tokens :=
  match tokens with
  | [] => ⟨.missing, [], Nat.le_refl _⟩
  | t :: rest =>
    match UnaryOp.ofToken? t with
    | some op =>
      let operand := Expr.readOperand rest
      ⟨.unary op operand.phrase, operand.rest, Nat.le_succ_of_le operand.rest_le⟩
    | none =>
      match t, rest with
      | .number x, rest => ⟨.number x, rest, Nat.le_succ _⟩
      | .string s, rest => ⟨.string s, rest, Nat.le_succ _⟩
      | .mark .lparen, rest =>
        let inner := Expr.readAt 0 rest
        let close := Closing.ofTokens inner.rest
        ⟨.paren inner.phrase close, inner.rest.drop close.width,
          Nat.le_succ_of_le (Nat.le_trans (List.drop_sublist _ _).length_le inner.rest_le)⟩
      | .symbol name, .mark .lparen :: rest =>
        let args := Arguments.read rest
        ⟨.call name args.phrase, args.rest, Nat.le_succ_of_le (Nat.le_succ_of_le args.rest_le)⟩
      | .symbol name, rest => ⟨.scalar name, rest, Nat.le_succ _⟩
      | t, rest => ⟨.misplaced t, rest, Nat.le_succ _⟩
termination_by (tokens.length, 0)
decreasing_by all_goals exact Prod.Lex.left _ _ (by simp only [List.length_cons]; omega)

/-- Reads arguments up to the closing parenthesis. -/
def Arguments.read (tokens : List Token) : Expr.Parsed Arguments tokens :=
  let first := Expr.readAt 0 tokens
  match _h : first.rest with
  | .mark .comma :: rest =>
    let others := Arguments.read rest
    ⟨.more first.phrase others.phrase, others.rest,
      Nat.le_trans (Nat.le_succ_of_le others.rest_le)
        (Nat.le_trans (Nat.le_of_eq (congrArg List.length _h).symm) first.rest_le)⟩
  | rest =>
    let close := Closing.ofTokens rest
    ⟨.last first.phrase close, rest.drop close.width,
      Nat.le_trans (List.drop_sublist _ _).length_le
        (Nat.le_trans (Nat.le_of_eq (congrArg List.length _h).symm) first.rest_le)⟩
termination_by (tokens.length, 3)
decreasing_by
  · exact Prod.Lex.right _ (by omega)
  · have := first.rest_le
    simp only [_h, List.length_cons] at this
    exact Prod.Lex.left _ _ (by omega)

end

/-- The expression that a list of tokens starts with. -/
def Expr.read (tokens : List Token) : Expr :=
  (Expr.readAt 0 tokens).phrase

end LineBasic
