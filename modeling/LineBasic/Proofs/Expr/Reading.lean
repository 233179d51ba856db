import LineBasic.Expr.Parser
import LineBasic.Proofs.Expr.Tree

/-!
# Trees are read back from their tokens

The tokens of a tree, followed by anything that does not go on with it, read as the tree with the
parentheses it was written with. Reading at a level `k` first takes an operand and then operators,
so the statement that carries the induction is about both halves: after the tokens of a tree written
at a level not below `k`, reading is where it would be had it just finished the tree as a left
operand.

## Main definitions

* `Expr.parseAt`, `Expr.parseOperators`, `Expr.parseOperand`, `Arguments.parse` — what is read and
  the tokens after it, as a pair
* `NameEnds`, `Follows` — what may come after the tokens of a tree inside a larger one
* `Tree.ReadsBack` — a tree is read back from its tokens in every place they can stand

## Main results

* `Tree.readsBack` — every tree is read back
* `Tree.read_tokens` — the tokens of a tree read as the tree, whatever ends the expression
-/

namespace LineBasic

namespace Expr

/-- The expression at a level that tokens start with, and the tokens after it. -/
def parseAt (level : Nat) (tokens : List Token) : Expr × List Token :=
  ((readAt level tokens).phrase, (readAt level tokens).rest)

/-- How an expression goes on after its left operand, and the tokens after it. -/
def parseOperators (level : Nat) (left : Expr) (tokens : List Token) : Expr × List Token :=
  ((readOperators level left tokens).phrase, (readOperators level left tokens).rest)

/-- The operand that tokens start with, and the tokens after it. -/
def parseOperand (tokens : List Token) : Expr × List Token :=
  ((readOperand tokens).phrase, (readOperand tokens).rest)

end Expr

/-- The argument list that tokens start with, and the tokens after it. -/
def Arguments.parse (tokens : List Token) : Arguments × List Token :=
  ((read tokens).phrase, (read tokens).rest)

namespace Expr

/-! ### One equation for each way to go on -/

theorem parseAt_eq (level : Nat) (tokens : List Token) :
    parseAt level tokens =
      parseOperators level (parseOperand tokens).1 (parseOperand tokens).2 := by
  rw [parseAt, readAt]
  rfl

@[simp] theorem parseOperators_nil (level : Nat) (left : Expr) :
    parseOperators level left [] = (left, []) := by
  rw [parseOperators, readOperators]

/-- A token that is no operator of the level or above ends the reading. -/
theorem parseOperators_stop {level : Nat} {t : Token} (left : Expr) (rest : List Token)
    (h : ∀ op, BinaryOp.ofToken? t = some op → op.level < level) :
    parseOperators level left (t :: rest) = (left, t :: rest) := by
  rw [parseOperators, readOperators]
  cases hop : BinaryOp.ofToken? t with
  | none => rfl
  | some op =>
    have hlt := h op hop
    simp only [if_neg (Nat.not_le.mpr hlt)]

/-- An operator of the level or above takes its right operand one level up. -/
theorem parseOperators_token {level : Nat} {op : BinaryOp} (left : Expr) (rest : List Token)
    (h : level ≤ op.level) :
    parseOperators level left (op.token :: rest) =
      parseOperators level (.binary op left (parseAt (op.level + 1) rest).1)
        (parseAt (op.level + 1) rest).2 := by
  rw [parseOperators, readOperators]
  simp only [BinaryOp.ofToken?_token, if_pos h]
  rfl

@[simp] theorem parseOperand_number (x : Float) (rest : List Token) :
    parseOperand (.number x :: rest) = (.number x, rest) := by
  rw [parseOperand, readOperand]
  rfl

@[simp] theorem parseOperand_string (s : Bytes) (rest : List Token) :
    parseOperand (.string s :: rest) = (.string s, rest) := by
  rw [parseOperand, readOperand]
  rfl

theorem parseOperand_symbol (name : Name) {rest : List Token}
    (h : rest.head? ≠ some (.mark .lparen)) :
    parseOperand (.symbol name :: rest) = (.scalar name, rest) := by
  rw [parseOperand, readOperand]
  · rfl
  · rintro rest' rfl
    simp at h

theorem parseOperand_unary (op : UnaryOp) (rest : List Token) :
    parseOperand (op.token :: rest) =
      (.unary op (parseOperand rest).1, (parseOperand rest).2) := by
  rw [parseOperand, parseOperand]
  cases op <;> simp [UnaryOp.token, UnaryOp.ofToken?, readOperand]

theorem parseOperand_lparen {tokens rest : List Token} {e : Expr}
    (h : parseAt 0 tokens = (e, .mark .rparen :: rest)) :
    parseOperand (.mark .lparen :: tokens) = (.paren e .closed, rest) := by
  obtain ⟨he, hrest⟩ := Prod.mk.inj h
  rw [parseOperand, readOperand]
  simp only [UnaryOp.ofToken?, hrest, he]
  rfl

theorem parseOperand_call (name : Name) (rest : List Token) :
    parseOperand (.symbol name :: .mark .lparen :: rest) =
      (.call name (Arguments.parse rest).1, (Arguments.parse rest).2) := by
  rw [parseOperand, readOperand]
  rfl

end Expr

/-- The last argument ends with its closing parenthesis. -/
theorem Arguments.parse_last {tokens rest : List Token} {e : Expr}
    (h : Expr.parseAt 0 tokens = (e, .mark .rparen :: rest)) :
    Arguments.parse tokens = (.last e .closed, rest) := by
  obtain ⟨he, hrest⟩ := Prod.mk.inj h
  rw [Arguments.parse, Arguments.read]
  split
  · next heq => simp [hrest] at heq
  · simp only [hrest, he]
    rfl

/-- After a comma the other arguments follow. -/
theorem Arguments.parse_more {tokens rest : List Token} {e : Expr}
    (h : Expr.parseAt 0 tokens = (e, .mark .comma :: rest)) :
    Arguments.parse tokens =
      (.more e (Arguments.parse rest).1, (Arguments.parse rest).2) := by
  obtain ⟨he, hrest⟩ := Prod.mk.inj h
  rw [Arguments.parse, Arguments.read]
  split
  · next heq =>
    rw [hrest] at heq
    obtain ⟨-, rfl⟩ := List.cons.inj heq
    simp only [he]
    rfl
  · next hne => exact absurd hrest (hne rest)

/-! ### What may come after a tree -/

/-- A parenthesis does not follow directly after a name. -/
def NameEnds (written tail : List Token) : Prop :=
  tail.head? = some (.mark .lparen) → ∀ name, written.getLast? ≠ some (.symbol name)

/-- What may follow a tree that is written at a level: no operator that binds more tightly. -/
structure Follows (level : Nat) (written tail : List Token) : Prop where
  nameEnds : NameEnds written tail
  op_le : ∀ t ∈ tail.head?, ∀ op, BinaryOp.ofToken? t = some op → op.rank ≤ level

theorem NameEnds.of_token (op : BinaryOp) (written rest : List Token) :
    NameEnds written (op.token :: rest) := by
  intro h
  -- a parenthesis is no operator, but every token of an operator is one
  have htok : op.token = .mark .lparen := by simpa using h
  have hnone : BinaryOp.ofToken? op.token = none := by rw [htok]; rfl
  simp at hnone

/-- Only the last tokens matter to what may follow. -/
theorem NameEnds.of_append {a written tail : List Token} (h : NameEnds (a ++ written) tail) :
    NameEnds written tail := by
  intro hhead name hlast
  refine h hhead name ?_
  rw [List.getLast?_append, hlast]
  rfl

theorem Follows.of_token {level : Nat} {op : BinaryOp} (written rest : List Token)
    (h : op.rank ≤ level) : Follows level written (op.token :: rest) where
  nameEnds := .of_token op written rest
  op_le := by
    intro t ht op' hop'
    obtain rfl : op.token = t := by simpa using ht
    obtain rfl : op = op' := by simpa using hop'
    exact h

/-- A closing parenthesis and a comma follow any tree. -/
theorem Follows.of_mark {m : Mark} (level : Nat) (written rest : List Token)
    (hop : BinaryOp.ofToken? (.mark m) = none) (hm : m ≠ .lparen) :
    Follows level written (.mark m :: rest) where
  nameEnds := by
    intro h
    simp [hm] at h
  op_le := by
    intro t ht op hop'
    obtain rfl : .mark m = t := by simpa using ht
    simp [hop] at hop'

/-! ### Reading a tree back -/

namespace Tree

/-- A tree is read back wherever its tokens stand. -/
structure ReadsBack (t : Tree) : Prop where
  /-- As the leftmost part of an expression. -/
  parseAt : ∀ {k level : Nat} {tail : List Token}, k ≤ level →
    Follows level (t.tokensAt level) tail →
    Expr.parseAt k (t.tokensAt level ++ tail) = Expr.parseOperators k (t.exprAt level) tail
  /-- As an operand. -/
  parseOperand : ∀ {tail : List Token}, NameEnds (t.tokensAt 6) tail →
    Expr.parseOperand (t.tokensAt 6 ++ tail) = (t.exprAt 6, tail)

namespace ReadsBack

/-- What is written in the same way at every level is read back if it is an operand. -/
theorem of_operand {t : Tree} (htokens : ∀ level, t.tokensAt level = t.tokensAt 6)
    (hexpr : ∀ level, t.exprAt level = t.exprAt 6)
    (h : ∀ {tail : List Token}, NameEnds (t.tokensAt 6) tail →
      Expr.parseOperand (t.tokensAt 6 ++ tail) = (t.exprAt 6, tail)) :
    t.ReadsBack where
  parseAt := by
    intro k level tail _ hf
    rw [htokens level] at hf ⊢
    rw [Expr.parseAt_eq, h hf.nameEnds, hexpr level]
  parseOperand := h

/-- Reading at the level at which a tree was written takes the whole tree. -/
theorem parseAt_self {t : Tree} (ht : t.ReadsBack) {level : Nat} {tail : List Token}
    (hf : NameEnds (t.tokensAt level) tail)
    (hop : ∀ u ∈ tail.head?, ∀ op, BinaryOp.ofToken? u = some op → op.rank < level) :
    Expr.parseAt level (t.tokensAt level ++ tail) = (t.exprAt level, tail) := by
  rw [ht.parseAt (Nat.le_refl level) ⟨hf, fun u hu op h => Nat.le_of_lt (hop u hu op h)⟩]
  cases tail with
  | nil => simp
  | cons u rest =>
    refine Expr.parseOperators_stop _ _ fun op h => ?_
    rw [op.level_eq_rank]
    exact hop u (by simp) op h

theorem parseAt_mark {t : Tree} (ht : t.ReadsBack) (m : Mark) (rest : List Token)
    (hop : BinaryOp.ofToken? (.mark m) = none) (hm : m ≠ .lparen) :
    Expr.parseAt 0 (t.tokensAt 0 ++ .mark m :: rest) = (t.exprAt 0, .mark m :: rest) := by
  refine ht.parseAt_self (Follows.of_mark 0 _ rest hop hm).nameEnds ?_
  intro u hu op h
  obtain rfl : .mark m = u := by simpa using hu
  simp [hop] at h

/-- Two operands with an operator between them, without parentheses around the whole. -/
theorem parseAt_bare {op : BinaryOp} {left right : Tree} (hl : left.ReadsBack)
    (hr : right.ReadsBack) {k : Nat} {tail : List Token} (hk : k ≤ op.rank)
    (hf : Follows op.rank
      (left.tokensAt op.rank ++ op.token :: right.tokensAt (op.rank + 1)) tail) :
    Expr.parseAt k
        (left.tokensAt op.rank ++ op.token :: right.tokensAt (op.rank + 1) ++ tail) =
      Expr.parseOperators k
        (.binary op (left.exprAt op.rank) (right.exprAt (op.rank + 1))) tail := by
  -- the right operand ends where the whole does, since what follows binds no more tightly
  have hright : Expr.parseAt (op.rank + 1) (right.tokensAt (op.rank + 1) ++ tail) =
      (right.exprAt (op.rank + 1), tail) := by
    refine hr.parseAt_self ?_ fun u hu op' h => Nat.lt_succ_of_le (hf.op_le u hu op' h)
    refine NameEnds.of_append (a := left.tokensAt op.rank ++ [op.token]) ?_
    simpa using hf.nameEnds
  rw [List.append_assoc, List.cons_append,
    hl.parseAt hk (Follows.of_token _ _ (Nat.le_refl _)),
    Expr.parseOperators_token _ _ (op.level_eq_rank ▸ hk), op.level_eq_rank, hright]

/-- In parentheses the operands are read at level 0, whatever stands outside. -/
theorem parseOperand_parenthesized {op : BinaryOp} {left right : Tree} (hl : left.ReadsBack)
    (hr : right.ReadsBack) (tail : List Token) :
    Expr.parseOperand (parenthesized
        (left.tokensAt op.rank ++ op.token :: right.tokensAt (op.rank + 1)) ++ tail) =
      (.paren (.binary op (left.exprAt op.rank) (right.exprAt (op.rank + 1))) .closed,
        tail) := by
  rw [parenthesized, List.cons_append]
  refine Expr.parseOperand_lparen ?_
  rw [List.append_assoc, List.singleton_append,
    hl.parseAt_bare hr (Nat.zero_le _) (.of_mark _ _ _ rfl (by decide))]
  exact Expr.parseOperators_stop _ _ (by simp [BinaryOp.ofToken?])

theorem binary {op : BinaryOp} {left right : Tree} (hl : left.ReadsBack) (hr : right.ReadsBack) :
    (Tree.binary op left right).ReadsBack where
  parseAt := by
    intro k level tail hk hf
    -- below its own level the tree stands bare, above it in parentheses, as an operand
    by_cases hle : level ≤ op.rank
    · simp only [tokensAt, exprAt, if_pos hle] at hf ⊢
      refine hl.parseAt_bare hr (Nat.le_trans hk hle) ⟨hf.nameEnds, fun u hu op' h => ?_⟩
      exact Nat.le_trans (hf.op_le u hu op' h) hle
    · simp only [tokensAt, exprAt, if_neg hle]
      rw [Expr.parseAt_eq, hl.parseOperand_parenthesized hr]
  parseOperand := by
    intro tail _
    have hle : ¬ 6 ≤ op.rank := Nat.not_le.mpr op.rank_lt
    simp only [tokensAt, exprAt, if_neg hle]
    exact hl.parseOperand_parenthesized hr tail

end ReadsBack

end Tree

mutual

/-- Every tree is read back. -/
theorem Tree.readsBack (t : Tree) : t.ReadsBack := by
  match t with
  | .number x =>
    exact .of_operand (fun _ => rfl) (fun _ => rfl) fun _ => by simp [Tree.tokensAt, Tree.exprAt]
  | .string s =>
    exact .of_operand (fun _ => rfl) (fun _ => rfl) fun _ => by simp [Tree.tokensAt, Tree.exprAt]
  | .scalar name =>
    refine .of_operand (fun _ => rfl) (fun _ => rfl) fun {tail} hne => ?_
    exact Expr.parseOperand_symbol name fun hhead => hne hhead name rfl
  | .unary op e =>
    refine .of_operand (fun _ => by simp [Tree.tokensAt]) (fun _ => by simp [Tree.exprAt])
      fun {tail} hne => ?_
    have he : NameEnds (e.tokensAt 6) tail := NameEnds.of_append (a := [op.token]) (by
      simpa [Tree.tokensAt] using hne)
    simp only [Tree.tokensAt, Tree.exprAt, List.cons_append]
    rw [Expr.parseOperand_unary, e.readsBack.parseOperand he]
  | .binary op left right => exact left.readsBack.binary right.readsBack
  | .call name args =>
    refine .of_operand (fun _ => by simp [Tree.tokensAt]) (fun _ => by simp [Tree.exprAt])
      fun {tail} _ => ?_
    simp only [Tree.tokensAt, Tree.exprAt, List.cons_append]
    rw [Expr.parseOperand_call, args.parse_tokens tail]

/-- And so is every list of arguments, up to its closing parenthesis. -/
theorem Trees.parse_tokens (ts : Trees) (tail : List Token) :
    Arguments.parse (ts.tokens ++ tail) = (ts.exprs, tail) := by
  match ts with
  | .last e =>
    simp only [Trees.tokens, Trees.exprs, List.append_assoc, List.singleton_append]
    exact Arguments.parse_last (e.readsBack.parseAt_mark .rparen tail rfl (by decide))
  | .more e rest =>
    simp only [Trees.tokens, Trees.exprs, List.append_assoc, List.cons_append]
    rw [Arguments.parse_more (e.readsBack.parseAt_mark .comma _ rfl (by decide)),
      rest.parse_tokens tail]

end

/-- The tokens of a tree read as the tree, whatever ends the expression after them. -/
theorem Tree.read_tokens {t : Tree} {tail : List Token} (h : Ends t.tokens tail) :
    Expr.read (t.tokens ++ tail) = t.exprAt 0 := by
  have hread : Expr.parseAt 0 (t.tokens ++ tail) = (t.exprAt 0, tail) := by
    refine t.readsBack.parseAt_self ?_ ?_
    · intro hhead
      exact (h _ hhead).2 rfl
    · intro u hu op hop
      simp [(h u hu).1] at hop
  exact congrArg Prod.fst hread

end LineBasic
