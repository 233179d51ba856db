import LineBasic.Proofs.Expr.Reading
import LineBasic.Proofs.Expr.Width
import LineBasic.Proofs.Expr.Whole

/-!
# Reading in front of more tokens

Reading looks at tokens from left to right and stops at the first one that it cannot use. So as long
as a token is left over, more tokens behind it make no difference: the same phrase is read, and they
are left over as well. For the arguments of a call it is enough that the line does not end before
their closing parenthesis.

## Main results

* `Expr.parseAt_append`, `Arguments.parse_append` — more tokens behind those that are left over
* `Expr.parseAt_word` — what is read in front of a word that starts a statement
-/

namespace LineBasic

open LineBasic.Expr

theorem BinaryOp.eq_token {t : Token} {op : BinaryOp} (h : BinaryOp.ofToken? t = some op) :
    t = op.token := by
  unfold BinaryOp.ofToken? at h
  split at h
  all_goals first | cases h; rfl | cases h

theorem Closing.eq_nil_of_ofTokens {tokens : List Token} (h : Closing.ofTokens tokens = .ended) :
    tokens = [] := by
  unfold Closing.ofTokens at h
  split at h
  · rfl
  · cases h
  · cases h

theorem Closing.ofTokens_append {tokens : List Token} (h : tokens ≠ []) (more : List Token) :
    Closing.ofTokens (tokens ++ more) = Closing.ofTokens tokens ∧
      (tokens ++ more).drop (Closing.ofTokens tokens).width =
        tokens.drop (Closing.ofTokens tokens).width ++ more := by
  cases tokens with
  | nil => exact absurd rfl h
  | cons t tokens =>
    have hwidth : (Closing.ofTokens (t :: tokens)).width ≤ (t :: tokens).length := by
      have hle := (LeftBehind.closing (t :: tokens)).length
      omega
    refine ⟨?_, List.drop_append_of_le_length hwidth⟩
    rw [List.cons_append, Closing.ofTokens.eq_def, Closing.ofTokens.eq_def]
    split <;> simp_all

namespace Expr

theorem parseOperand_paren (tokens : List Token) :
    parseOperand (.mark .lparen :: tokens) =
      (.paren (parseAt 0 tokens).1 (.ofTokens (parseAt 0 tokens).2),
        (parseAt 0 tokens).2.drop (Closing.ofTokens (parseAt 0 tokens).2).width) := by
  rw [parseOperand, readOperand]
  rfl

/-- The ways in which an operand can start; any other token is misplaced. -/
theorem operand_cases (t : Token) :
    (∃ op : UnaryOp, t = op.token) ∨ (∃ x, t = .number x) ∨ (∃ s, t = .string s) ∨
      t = .mark .lparen ∨ (∃ name, t = .symbol name) ∨
      ∀ rest, parseOperand (t :: rest) = (.misplaced t, rest) := by
  have hmisplaced : UnaryOp.ofToken? t = none → (∀ x, t ≠ .number x) → (∀ s, t ≠ .string s) →
      t ≠ .mark .lparen → (∀ name, t ≠ .symbol name) →
      ∀ rest, parseOperand (t :: rest) = (.misplaced t, rest) := by
    intro hop hnumber hstring hparen hsymbol rest
    rw [parseOperand, readOperand.eq_def]
    simp only [hop]
    split <;> simp_all
  by_cases hop : UnaryOp.ofToken? t = none
  · cases t with
    | number x => exact .inr (.inl ⟨x, rfl⟩)
    | string s => exact .inr (.inr (.inl ⟨s, rfl⟩))
    | symbol name => exact .inr (.inr (.inr (.inr (.inl ⟨name, rfl⟩))))
    | mark m =>
      by_cases hm : m = .lparen
      · exact .inr (.inr (.inr (.inl (by rw [hm]))))
      · have hother : Token.mark m ≠ .mark .lparen := by simpa using hm
        exact .inr (.inr (.inr (.inr (.inr (hmisplaced hop nofun nofun hother nofun)))))
    | keyword k => exact .inr (.inr (.inr (.inr (.inr (hmisplaced hop nofun nofun nofun nofun)))))
    | remark s => exact .inr (.inr (.inr (.inr (.inr (hmisplaced hop nofun nofun nofun nofun)))))
    | data vs => exact .inr (.inr (.inr (.inr (.inr (hmisplaced hop nofun nofun nofun nofun)))))
  · left
    unfold UnaryOp.ofToken? at hop
    split at hop
    · exact ⟨.plus, rfl⟩
    · exact ⟨.minus, rfl⟩
    · exact ⟨.not, rfl⟩
    · exact absurd rfl hop

/-- What is left over by an operand is no longer than what was given. -/
theorem length_parseOperand (tokens : List Token) :
    (parseOperand tokens).2.length ≤ tokens.length :=
  (readOperand tokens).rest_le

theorem length_parseAt (level : Nat) (tokens : List Token) :
    (parseAt level tokens).2.length ≤ tokens.length :=
  (readAt level tokens).rest_le

end Expr

theorem Arguments.parse_stop {tokens : List Token}
    (h : ∀ rest, (parseAt 0 tokens).2 ≠ .mark .comma :: rest) :
    Arguments.parse tokens =
      (.last (parseAt 0 tokens).1 (.ofTokens (parseAt 0 tokens).2),
        (parseAt 0 tokens).2.drop (Closing.ofTokens (parseAt 0 tokens).2).width) := by
  rw [Arguments.parse, Arguments.read]
  split
  · next rest heq => exact absurd heq (h rest)
  · rfl

/-! ### More tokens behind those that are left over -/

/-- The last closing of an argument list. -/
def Arguments.closing : Arguments → Closing
  | .last _ close => close
  | .more _ rest => rest.closing

/-- An argument list that the end of the line cuts off leaves nothing over. -/
theorem Arguments.closing_ne_ended (tokens : List Token) (h : (Arguments.parse tokens).2 ≠ []) :
    (Arguments.parse tokens).1.closing ≠ .ended := by
  by_cases hcomma : ∃ rest, (parseAt 0 tokens).2 = .mark .comma :: rest
  · obtain ⟨rest, hrest⟩ := hcomma
    rw [Arguments.parse_more (Prod.ext rfl hrest)] at h ⊢
    exact Arguments.closing_ne_ended rest h
  · rw [Arguments.parse_stop fun rest hrest => hcomma ⟨rest, hrest⟩] at h ⊢
    intro hended
    rw [Closing.eq_nil_of_ofTokens hended, List.drop_nil] at h
    exact h rfl
termination_by tokens.length
decreasing_by
  have hle := length_parseAt 0 tokens
  rw [hrest, List.length_cons] at hle
  omega

-- The recursion is that of the definitions.
mutual

theorem Expr.parseAt_append (level : Nat) (tokens more : List Token)
    (h : (parseAt level tokens).2 ≠ []) :
    parseAt level (tokens ++ more) =
      ((parseAt level tokens).1, (parseAt level tokens).2 ++ more) := by
  rw [parseAt_eq] at h
  have hleft : (parseOperand tokens).2 ≠ [] := by
    intro hnil
    rw [hnil, parseOperators_nil] at h
    exact h rfl
  rw [parseAt_eq, parseAt_eq, Expr.parseOperand_append tokens more hleft]
  exact Expr.parseOperators_append level _ _ more h
termination_by (tokens.length, 2)
decreasing_by
  · exact Prod.Lex.right _ (by omega)
  · rcases Nat.lt_or_eq_of_le (length_parseOperand tokens) with h | h
    · exact Prod.Lex.left _ _ h
    · rw [h]; exact Prod.Lex.right _ (by omega)

theorem Expr.parseOperators_append (level : Nat) (left : Expr) (tokens more : List Token)
    (h : (parseOperators level left tokens).2 ≠ []) :
    parseOperators level left (tokens ++ more) =
      ((parseOperators level left tokens).1, (parseOperators level left tokens).2 ++ more) := by
  match tokens with
  | [] =>
    rw [parseOperators_nil] at h
    exact absurd rfl h
  | t :: rest =>
    rw [List.cons_append]
    by_cases hop : ∃ op, BinaryOp.ofToken? t = some op ∧ level ≤ op.level
    · obtain ⟨op, hop, hlevel⟩ := hop
      obtain rfl := BinaryOp.eq_token hop
      rw [parseOperators_token left rest hlevel] at h ⊢
      -- a right operand that took all tokens would leave none
      have hright : (parseAt (op.level + 1) rest).2 ≠ [] := by
        intro hnil
        rw [hnil, parseOperators_nil] at h
        exact h rfl
      rw [parseOperators_token left _ hlevel, Expr.parseAt_append _ rest more hright]
      exact Expr.parseOperators_append level _ _ more h
    · have hstop : ∀ op, BinaryOp.ofToken? t = some op → op.level < level :=
        fun op hsome => Nat.lt_of_not_le fun hlevel => hop ⟨op, hsome, hlevel⟩
      rw [parseOperators_stop left rest hstop, parseOperators_stop left _ hstop, List.cons_append]
termination_by (tokens.length, 1)
decreasing_by
  · exact Prod.Lex.left _ _ (by simp)
  · exact Prod.Lex.left _ _ (Nat.lt_succ_of_le (length_parseAt _ rest))

theorem Expr.parseOperand_append (tokens more : List Token) (h : (parseOperand tokens).2 ≠ []) :
    parseOperand (tokens ++ more) =
      ((parseOperand tokens).1, (parseOperand tokens).2 ++ more) := by
  match tokens with
  | [] =>
    rw [parseOperand, readOperand] at h
    exact absurd rfl h
  | t :: rest =>
    rw [List.cons_append]
    rcases operand_cases t with ⟨op, rfl⟩ | ⟨x, rfl⟩ | ⟨s, rfl⟩ | rfl | ⟨name, rfl⟩ | hmisplaced
    · rw [parseOperand_unary] at h
      rw [parseOperand_unary, parseOperand_unary, Expr.parseOperand_append rest more h]
    · rw [parseOperand_number, parseOperand_number]
    · rw [parseOperand_string, parseOperand_string]
    · rw [parseOperand_paren] at h
      have hinner : (parseAt 0 rest).2 ≠ [] := by
        intro hnil
        rw [hnil, List.drop_nil] at h
        exact h rfl
      obtain ⟨hclosing, hdrop⟩ := Closing.ofTokens_append hinner more
      rw [parseOperand_paren, parseOperand_paren, Expr.parseAt_append 0 rest more hinner]
      rw [hclosing, hdrop]
    · by_cases hparen : ∃ rest', rest = .mark .lparen :: rest'
      · obtain ⟨rest', hrest⟩ := hparen
        rw [hrest, parseOperand_call] at h
        rw [hrest, List.cons_append, parseOperand_call, parseOperand_call,
          Arguments.parse_append rest' more (Arguments.closing_ne_ended rest' h)]
      · have hhead : rest.head? ≠ some (.mark .lparen) := by
          intro hhead
          cases rest with
          | nil => cases hhead
          | cons u rest' => exact hparen ⟨rest', by rw [Option.some.inj hhead]⟩
        rw [parseOperand_symbol name hhead] at h
        -- a token is left, so it still decides that the name has no arguments
        have hhead' : (rest ++ more).head? ≠ some (.mark .lparen) := by
          obtain ⟨u, us, rfl⟩ := List.exists_cons_of_ne_nil h
          exact hhead
        rw [parseOperand_symbol name hhead, parseOperand_symbol name hhead']
    · rw [hmisplaced, hmisplaced]
termination_by (tokens.length, 0)
decreasing_by
  · exact Prod.Lex.left _ _ (by simp)
  · exact Prod.Lex.left _ _ (by simp)
  · exact Prod.Lex.left _ _ (by simp only [hrest, List.length_cons]; omega)

theorem Arguments.parse_append (tokens more : List Token)
    (h : (Arguments.parse tokens).1.closing ≠ .ended) :
    Arguments.parse (tokens ++ more) =
      ((Arguments.parse tokens).1, (Arguments.parse tokens).2 ++ more) := by
  by_cases hcomma : ∃ rest, (parseAt 0 tokens).2 = .mark .comma :: rest
  · obtain ⟨rest, hrest⟩ := hcomma
    have hfirst := Expr.parseAt_append 0 tokens more (by rw [hrest]; exact List.cons_ne_nil _ _)
    rw [hrest, List.cons_append] at hfirst
    rw [Arguments.parse_more (Prod.ext rfl hrest)] at h
    rw [Arguments.parse_more hfirst, Arguments.parse_more (Prod.ext rfl hrest),
      Arguments.parse_append rest more h]
  · have hstop : ∀ rest, (parseAt 0 tokens).2 ≠ .mark .comma :: rest :=
      fun rest hrest => hcomma ⟨rest, hrest⟩
    rw [Arguments.parse_stop hstop] at h
    have hleft : (parseAt 0 tokens).2 ≠ [] := by
      intro hnil
      rw [hnil] at h
      exact h rfl
    have hfirst := Expr.parseAt_append 0 tokens more hleft
    obtain ⟨hclosing, hdrop⟩ := Closing.ofTokens_append hleft more
    have hstop' : ∀ rest, (parseAt 0 (tokens ++ more)).2 ≠ .mark .comma :: rest := by
      intro rest hrest
      rw [hfirst] at hrest
      obtain ⟨u, us, hu⟩ := List.exists_cons_of_ne_nil hleft
      rw [hu, List.cons_append] at hrest
      exact hstop us (by rw [hu, (List.cons.inj hrest).1])
    rw [Arguments.parse_stop hstop', Arguments.parse_stop hstop, hfirst, hclosing, hdrop]
termination_by (tokens.length, 3)
decreasing_by
  · exact Prod.Lex.right _ (by omega)
  · have hle := length_parseAt 0 tokens
    rw [hrest, List.length_cons] at hle
    exact Prod.Lex.left _ _ (by omega)
  · exact Prod.Lex.right _ (by omega)

end

/-! ### Words -/

/-- What reading may leave over of tokens that end with a word and a name: the name, or both and
some of the tokens in front of them. -/
def LeavesName (k : Keyword) (name : Name) (tokens : List Token) : Prop :=
  tokens = [.symbol name] ∨ [.keyword k, .symbol name] <:+ tokens

namespace LeavesName

variable {k : Keyword} {name : Name} {t : Token} {tokens : List Token}

theorem ne_nil (h : LeavesName k name tokens) : tokens ≠ [] := by
  rcases h with rfl | ⟨left, rfl⟩ <;> simp

theorem suffix_tail (h : [.keyword k, .symbol name] <:+ t :: tokens) (hk : t ≠ .keyword k) :
    [.keyword k, .symbol name] <:+ tokens := by
  rcases List.suffix_cons_iff.mp h with heq | htail
  · exact absurd (List.cons.inj heq).1.symm hk
  · exact htail

/-- A token in front that is neither of the two leaves both of them over. -/
theorem tail (h : LeavesName k name (t :: tokens)) (hk : t ≠ .keyword k)
    (hname : t ≠ .symbol name) : [.keyword k, .symbol name] <:+ tokens := by
  rcases h with heq | hsuffix
  · exact absurd (List.cons.inj heq).1 hname
  · exact suffix_tail hsuffix hk

/-- A closing parenthesis is in front of both of them. -/
theorem drop_closing (h : LeavesName k name tokens) :
    LeavesName k name (tokens.drop (Closing.ofTokens tokens).width) := by
  unfold Closing.ofTokens
  split
  · exact h
  · exact .inr (h.tail (by simp) (by simp))
  · exact h

end LeavesName

section Words

variable {k : Keyword} {name : Name}

-- The recursion is that of the definitions.
mutual

theorem Expr.leavesName_parseAt (hk : (Token.keyword k).isInner = false) (level : Nat)
    (tokens : List Token) (h : [.keyword k, .symbol name] <:+ tokens) :
    LeavesName k name (parseAt level tokens).2 := by
  rw [parseAt_eq]
  exact Expr.leavesName_parseOperators hk level _ _ (Expr.leavesName_parseOperand hk tokens h)
termination_by (tokens.length, 2)
decreasing_by
  · exact Prod.Lex.right _ (by omega)
  · rcases Nat.lt_or_eq_of_le (length_parseOperand tokens) with hlt | heq
    · exact Prod.Lex.left _ _ hlt
    · rw [heq]; exact Prod.Lex.right _ (by omega)

theorem Expr.leavesName_parseOperators (hk : (Token.keyword k).isInner = false) (level : Nat)
    (left : Expr) (tokens : List Token) (h : LeavesName k name tokens) :
    LeavesName k name (parseOperators level left tokens).2 := by
  match tokens with
  | [] => exact absurd rfl h.ne_nil
  | t :: rest =>
    by_cases hop : ∃ op, BinaryOp.ofToken? t = some op ∧ level ≤ op.level
    · obtain ⟨op, hop, hlevel⟩ := hop
      have hinner := BinaryOp.isInner_of_ofToken? hop
      obtain rfl := BinaryOp.eq_token hop
      have hsuffix : [.keyword k, .symbol name] <:+ rest := by
        apply h.tail
        · intro heq
          rw [heq, hk] at hinner
          cases hinner
        · intro heq
          rw [heq] at hop
          cases hop
      rw [parseOperators_token left rest hlevel]
      exact Expr.leavesName_parseOperators hk level _ _
        (Expr.leavesName_parseAt hk _ rest hsuffix)
    · have hstop : ∀ op, BinaryOp.ofToken? t = some op → op.level < level :=
        fun op hsome => Nat.lt_of_not_le fun hlevel => hop ⟨op, hsome, hlevel⟩
      rw [parseOperators_stop left rest hstop]
      exact h
termination_by (tokens.length, 1)
decreasing_by
  · exact Prod.Lex.left _ _ (by simp)
  · exact Prod.Lex.left _ _ (Nat.lt_succ_of_le (length_parseAt _ rest))

theorem Expr.leavesName_parseOperand (hk : (Token.keyword k).isInner = false)
    (tokens : List Token) (h : [.keyword k, .symbol name] <:+ tokens) :
    LeavesName k name (parseOperand tokens).2 := by
  match tokens with
  | [] => exact absurd (List.suffix_nil.mp h) (List.cons_ne_nil _ _)
  | t :: rest =>
    rcases operand_cases t with ⟨op, rfl⟩ | ⟨x, rfl⟩ | ⟨s, rfl⟩ | rfl | ⟨other, rfl⟩ | hmisplaced
    · have hne : op.token ≠ .keyword k := by
        rintro heq
        cases op <;> cases heq
        cases hk
      rw [parseOperand_unary]
      exact Expr.leavesName_parseOperand hk rest (LeavesName.suffix_tail h hne)
    · rw [parseOperand_number]
      exact .inr (LeavesName.suffix_tail h (by simp))
    · rw [parseOperand_string]
      exact .inr (LeavesName.suffix_tail h (by simp))
    · rw [parseOperand_paren]
      exact (Expr.leavesName_parseAt hk 0 rest (LeavesName.suffix_tail h (by simp))).drop_closing
    · have hrest := LeavesName.suffix_tail h (by simp)
      by_cases hparen : ∃ args, rest = .mark .lparen :: args
      · obtain ⟨args, hargs⟩ := hparen
        rw [hargs] at hrest ⊢
        rw [parseOperand_call]
        exact Arguments.leavesName_parse hk args (LeavesName.suffix_tail hrest (by simp))
      · have hhead : rest.head? ≠ some (.mark .lparen) := by
          intro hhead
          obtain ⟨args, hargs⟩ := List.head?_eq_some_iff.mp hhead
          exact hparen ⟨args, hargs⟩
        rw [parseOperand_symbol other hhead]
        exact .inr hrest
    · -- where an operand is due, the word is misplaced, and the name is left over
      rw [hmisplaced]
      rcases List.suffix_cons_iff.mp h with heq | htail
      · exact .inl (List.cons.inj heq).2.symm
      · exact .inr htail
termination_by (tokens.length, 0)
decreasing_by
  · exact Prod.Lex.left _ _ (by simp)
  · exact Prod.Lex.left _ _ (by simp)
  · exact Prod.Lex.left _ _ (by simp only [hargs, List.length_cons]; omega)

theorem Arguments.leavesName_parse (hk : (Token.keyword k).isInner = false)
    (tokens : List Token) (h : [.keyword k, .symbol name] <:+ tokens) :
    LeavesName k name (Arguments.parse tokens).2 := by
  have hfirst := Expr.leavesName_parseAt hk 0 tokens h
  by_cases hcomma : ∃ rest, (parseAt 0 tokens).2 = .mark .comma :: rest
  · obtain ⟨rest, hrest⟩ := hcomma
    rw [Arguments.parse_more (Prod.ext rfl hrest)]
    rw [hrest] at hfirst
    exact Arguments.leavesName_parse hk rest (hfirst.tail (by simp) (by simp))
  · rw [Arguments.parse_stop fun rest hrest => hcomma ⟨rest, hrest⟩]
    exact hfirst.drop_closing
termination_by (tokens.length, 3)
decreasing_by
  · exact Prod.Lex.right _ (by omega)
  · have hle := length_parseAt 0 tokens
    rw [hrest, List.length_cons] at hle
    exact Prod.Lex.left _ _ (by omega)

end

/-- What is read in front of a word and a name is the same, whatever comes behind the name. -/
theorem Expr.parseAt_word (hk : (Token.keyword k).isInner = false) (name : Name) (level : Nat)
    (left more : List Token) :
    (parseAt level (left ++ .keyword k :: .symbol name :: more)).1 =
        (parseAt level (left ++ [.keyword k, .symbol name])).1 ∧
      (parseAt level (left ++ .keyword k :: .symbol name :: more)).2.head? =
        (parseAt level (left ++ [.keyword k, .symbol name])).2.head? := by
  have hsuffix : [.keyword k, .symbol name] <:+ left ++ [.keyword k, .symbol name] :=
    List.suffix_append left _
  have hleft := (Expr.leavesName_parseAt hk level _ hsuffix).ne_nil
  have hsplit : left ++ .keyword k :: .symbol name :: more =
      (left ++ [.keyword k, .symbol name]) ++ more := by
    simp
  rw [hsplit, Expr.parseAt_append level _ more hleft]
  refine ⟨rfl, ?_⟩
  obtain ⟨u, us, hus⟩ := List.exists_cons_of_ne_nil hleft
  rw [hus]
  rfl

end Words

end LineBasic
