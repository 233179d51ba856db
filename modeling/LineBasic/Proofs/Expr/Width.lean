import LineBasic.Expr.Parser

/-!
# How many tokens an expression takes

Reading hands back the tokens after a phrase, and evaluation later moves along the tokens that the
phrase was read from. The two agree because a phrase by itself says how many tokens it takes: what
is read and what is left make up what was given. So what reading hands back are the tokens behind
those that the phrase takes.

## Main definitions

* `Expr.width`, `Arguments.width` — the number of tokens that a phrase takes
* `LeftBehind` — what is left of a list behind some of its elements

## Main results

* `Expr.behind_readAt`, `Expr.behind_readOperand`, `Arguments.behind_read` — what reading leaves
-/

namespace LineBasic

mutual

/-- The number of tokens that an expression takes. -/
def Expr.width : Expr → Nat
  | .number _ | .string _ | .scalar _ | .misplaced _ => 1
  | .call _ args => 2 + args.width
  | .paren e close => 1 + (e.width + close.width)
  | .unary _ e => 1 + e.width
  | .binary _ left right => left.width + (1 + right.width)
  | .missing => 0

/-- The number of tokens that an argument list takes after its opening parenthesis. -/
def Arguments.width : Arguments → Nat
  | .last e close => e.width + close.width
  | .more e rest => e.width + (1 + rest.width)

end

/-- `rest` is what is left of a list behind the first `k` elements. -/
def LeftBehind (tokens : List Token) (k : Nat) (rest : List Token) : Prop :=
  ∃ taken, tokens = taken ++ rest ∧ taken.length = k

namespace LeftBehind

variable {tokens rest others : List Token} {k l : Nat}

theorem refl (tokens : List Token) : LeftBehind tokens 0 tokens :=
  ⟨[], rfl, rfl⟩

theorem trans (h : LeftBehind tokens k rest) (h' : LeftBehind rest l others) :
    LeftBehind tokens (k + l) others := by
  obtain ⟨taken, rfl, rfl⟩ := h
  obtain ⟨more, rfl, rfl⟩ := h'
  exact ⟨taken ++ more, (List.append_assoc _ _ _).symm, List.length_append⟩

theorem cons (t : Token) (h : LeftBehind rest k others) : LeftBehind (t :: rest) (1 + k) others :=
  .trans ⟨[t], rfl, rfl⟩ h

theorem length (h : LeftBehind tokens k rest) : k + rest.length = tokens.length := by
  obtain ⟨taken, rfl, rfl⟩ := h
  exact List.length_append.symm

theorem eq_drop (h : LeftBehind tokens k rest) : rest = tokens.drop k := by
  obtain ⟨taken, rfl, rfl⟩ := h
  exact List.drop_left.symm

/-- A closing takes a token only where there is one. -/
theorem closing (tokens : List Token) :
    LeftBehind tokens (Closing.ofTokens tokens).width
      (tokens.drop (Closing.ofTokens tokens).width) := by
  refine ⟨tokens.take (Closing.ofTokens tokens).width, (List.take_append_drop _ _).symm, ?_⟩
  rw [List.length_take, Nat.min_eq_left]
  fun_cases Closing.ofTokens tokens <;> simp [Closing.width]

end LeftBehind

-- As in the definitions, the tokens get fewer, or a part is read that comes before the others.
mutual

/-- What is left of the tokens given are those behind the tokens that an expression takes. -/
theorem Expr.behind_readAt (level : Nat) (tokens : List Token) :
    LeftBehind tokens (Expr.readAt level tokens).phrase.width (Expr.readAt level tokens).rest := by
  have hleft := Expr.behind_readOperand tokens
  obtain ⟨k, hwidth, hright⟩ := Expr.behind_readOperators level (Expr.readOperand tokens).phrase
    (Expr.readOperand tokens).rest
  rw [Expr.readAt]
  dsimp only
  rw [hwidth]
  exact hleft.trans hright
termination_by (tokens.length, 2)
decreasing_by
  · exact Prod.Lex.right _ (by omega)
  · rcases Nat.lt_or_eq_of_le (Expr.readOperand tokens).rest_le with h | h
    · exact Prod.Lex.left _ _ h
    · rw [h]; exact Prod.Lex.right _ (by omega)

/-- The tokens of the left operand were taken before. -/
theorem Expr.behind_readOperators (level : Nat) (left : Expr) (tokens : List Token) :
    ∃ k, (Expr.readOperators level left tokens).phrase.width = left.width + k ∧
      LeftBehind tokens k (Expr.readOperators level left tokens).rest := by
  match tokens with
  | [] =>
    rw [Expr.readOperators]
    exact ⟨0, rfl, .refl _⟩
  | t :: rest =>
    rw [Expr.readOperators]
    cases BinaryOp.ofToken? t with
    | none => exact ⟨0, rfl, .refl _⟩
    | some op =>
      by_cases hlevel : level ≤ op.level
      · have hright := Expr.behind_readAt (op.level + 1) rest
        obtain ⟨k, hwidth, hwhole⟩ := Expr.behind_readOperators level
          (.binary op left (Expr.readAt (op.level + 1) rest).phrase)
          (Expr.readAt (op.level + 1) rest).rest
        simp only [if_pos hlevel]
        refine ⟨1 + ((Expr.readAt (op.level + 1) rest).phrase.width + k), ?_,
          (hright.trans hwhole).cons t⟩
        rw [hwidth, Expr.width]
        omega
      · simp only [if_neg hlevel]
        exact ⟨0, rfl, .refl _⟩
termination_by (tokens.length, 1)
decreasing_by
  · exact Prod.Lex.left _ _ (by simp)
  · exact Prod.Lex.left _ _ (Nat.lt_succ_of_le (Expr.readAt (op.level + 1) rest).rest_le)

theorem Expr.behind_readOperand (tokens : List Token) :
    LeftBehind tokens (Expr.readOperand tokens).phrase.width (Expr.readOperand tokens).rest := by
  match tokens with
  | [] =>
    rw [Expr.readOperand]
    exact .refl _
  | t :: rest =>
    have hone : ∀ u : Token, LeftBehind (u :: rest) 1 rest := fun u => (LeftBehind.refl rest).cons u
    unfold Expr.readOperand
    split
    · exact (Expr.behind_readOperand rest).cons t
    · split
      · exact hone _
      · exact hone _
      · exact ((Expr.behind_readAt 0 rest).trans (.closing _)).cons _
      · next name rest' _ =>
        have hargs := ((Arguments.behind_read rest').cons (.mark .lparen)).cons (.symbol name)
        rw [← Nat.add_assoc] at hargs
        exact hargs
      · exact hone _
      · exact hone _
termination_by (tokens.length, 0)
decreasing_by
  · exact Prod.Lex.left _ _ (by simp only [List.length_cons]; omega)
  · exact Prod.Lex.left _ _ (by simp only [List.length_cons]; omega)
  · next hrest => exact Prod.Lex.left _ _ (by simp only [hrest, List.length_cons]; omega)

/-- What is left of the tokens given are those behind the tokens that an argument list takes. -/
theorem Arguments.behind_read (tokens : List Token) :
    LeftBehind tokens (Arguments.read tokens).phrase.width (Arguments.read tokens).rest := by
  have hfirst := Expr.behind_readAt 0 tokens
  rw [Arguments.read]
  split
  · next rest h =>
    have hothers := Arguments.behind_read rest
    rw [h] at hfirst
    exact hfirst.trans (hothers.cons _)
  · exact hfirst.trans (.closing _)
termination_by (tokens.length, 3)
decreasing_by
  · exact Prod.Lex.right _ (by omega)
  · next h =>
    have hle := (Expr.readAt 0 tokens).rest_le
    rw [h, List.length_cons] at hle
    exact Prod.Lex.left _ _ (by omega)

end

/-- An expression takes no more tokens than there are. -/
theorem Expr.width_read_le (tokens : List Token) : (Expr.read tokens).width ≤ tokens.length :=
  Nat.le_of_add_right_le (Nat.le_of_eq (Expr.behind_readAt 0 tokens).length)

/-- An argument list takes no more tokens than there are. -/
theorem Arguments.width_read_le (tokens : List Token) :
    (Arguments.read tokens).phrase.width ≤ tokens.length :=
  Nat.le_of_add_right_le (Nat.le_of_eq (Arguments.behind_read tokens).length)

end LineBasic
