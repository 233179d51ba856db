import LineBasic.Machine.Eval
import LineBasic.Proofs.Expr.Width
import LineBasic.Proofs.Machine.Action

/-!
# What an expression with a value is made of

Reading an expression never fails: where the tokens do not fit, the tree says so, and evaluation
stops there. An expression that has a value is therefore whole, since evaluation goes through all of
its parts; and a whole expression was read from operands, operators and punctuation only. In
particular no word that starts a statement, and no colon, is among its tokens.

## Main definitions

* `Token.isInner` — tokens that can stand inside a statement
* `Expr.Whole`, `Arguments.Whole` — trees in which nothing is wrong

## Main results

* `Expr.whole_of_evalWith`, `Arguments.whole_of_evalArguments` — what has a value is whole
* `Expr.isInner_of_whole`, `Arguments.isInner_of_whole` — the tokens of a whole tree
-/

namespace LineBasic

/-- Whether tokens of a kind can stand inside a statement: operands, operators, punctuation other
than a colon, and the words inside a `FOR`. -/
def Token.Kind.isInner : Token.Kind → Bool
  | .symbol | .string | .number => true
  | .mark .colon => false
  | .mark _ => true
  | .keyword .AND | .keyword .OR | .keyword .NOT | .keyword .TO | .keyword .STEP => true
  | _ => false

/-- Whether a token can stand inside a statement. -/
def Token.isInner (t : Token) : Bool :=
  t.kind.isInner

theorem Token.isInner_of_kind {t : Token} {k : Token.Kind} (h : t.kind = k)
    (hk : k.isInner = true) : t.isInner = true := by
  rw [Token.isInner, h, hk]

/-- A token that can stand inside a statement does not end one. -/
theorem Token.endsStatement_of_isInner {t : Token} (h : t.isInner = true) :
    t.endsStatement = false := by
  cases t with
  | keyword k =>
    cases k
    all_goals first | rfl | cases h
  | mark m =>
    cases m
    all_goals first | rfl | cases h
  | _ => rfl

mutual

/-- Nothing is wrong with an expression: no operand is missing or misplaced, and all parentheses are
closed. -/
def Expr.Whole : Expr → Prop
  | .number _ | .string _ | .scalar _ => True
  | .call _ args => args.Whole
  | .paren e close => e.Whole ∧ close = .closed
  | .unary _ e => e.Whole
  | .binary _ left right => left.Whole ∧ right.Whole
  | .missing | .misplaced _ => False

/-- Nothing is wrong with an argument list. -/
def Arguments.Whole : Arguments → Prop
  | .last e close => e.Whole ∧ close = .closed
  | .more e rest => e.Whole ∧ rest.Whole

end

/-! ### What has a value is whole -/

section Evaluation

open Machine

/-- An action that succeeds after another one has one to succeed before it. -/
theorem bind_eq_ok {ε σ α β : Type} {x : EStateM ε σ α} {f : α → EStateM ε σ β} {s s' : σ} {b : β}
    (h : (x >>= f) s = .ok b s') : ∃ a t, x s = .ok a t ∧ f a t = .ok b s' := by
  rw [bind_apply] at h
  split at h
  · next a t hx => exact ⟨a, t, hx, h⟩
  · cases h

theorem Closing.eq_closed_of_takeClosing {close : Closing} {m m' : Machine}
    (h : takeClosing close m = .ok () m') : close = .closed := by
  cases close with
  | closed => rfl
  | ended => cases h
  | blocked => cases h

variable {body : Name → Eval Value}

mutual

/-- An expression that has a value is whole: evaluation goes through all its parts. -/
theorem Expr.whole_of_evalWith {m m' : Machine} {v : Value} (e : Expr)
    (h : evalWith body e m = .ok v m') : e.Whole := by
  match e with
  | .number x => trivial
  | .string s => trivial
  | .scalar name => trivial
  | .paren e close =>
    rw [evalWith] at h
    obtain ⟨_, m₁, -, h⟩ := bind_eq_ok h
    obtain ⟨_, m₂, he, h⟩ := bind_eq_ok h
    obtain ⟨_, m₃, hclose, -⟩ := bind_eq_ok h
    exact ⟨Expr.whole_of_evalWith e he, Closing.eq_closed_of_takeClosing hclose⟩
  | .unary op e =>
    rw [evalWith] at h
    obtain ⟨_, m₁, -, h⟩ := bind_eq_ok h
    obtain ⟨_, m₂, he, -⟩ := bind_eq_ok h
    exact Expr.whole_of_evalWith e he
  | .binary op left right =>
    rw [evalWith] at h
    obtain ⟨_, m₁, hleft, h⟩ := bind_eq_ok h
    obtain ⟨_, m₂, -, h⟩ := bind_eq_ok h
    obtain ⟨_, m₃, hright, -⟩ := bind_eq_ok h
    exact ⟨Expr.whole_of_evalWith left hleft, Expr.whole_of_evalWith right hright⟩
  | .call name args =>
    rw [evalWith] at h
    obtain ⟨_, m₁, -, h⟩ := bind_eq_ok h
    cases hfind : Builtin.find? name with
    | some b =>
      simp only [hfind] at h
      obtain ⟨_, m₂, hargs, -⟩ := bind_eq_ok h
      exact Arguments.whole_of_evalArguments args hargs
    | none =>
      simp only [hfind, get_bind_apply] at h
      cases hfunction : m₁.functions[name]? with
      | some f =>
        simp only [hfunction] at h
        obtain ⟨_, m₂, hargs, -⟩ := bind_eq_ok h
        exact Arguments.whole_of_bindArguments args hargs
      | none =>
        simp only [hfunction] at h
        obtain ⟨_, m₂, hargs, -⟩ := bind_eq_ok h
        exact Arguments.whole_of_evalArguments args hargs
  | .missing => cases h
  | .misplaced t =>
    rw [evalWith] at h
    obtain ⟨_, m₁, -, h⟩ := bind_eq_ok h
    cases h

/-- Arguments that have values are whole. -/
theorem Arguments.whole_of_evalArguments {m m' : Machine} {vs : List Value} (args : Arguments)
    (h : evalArguments body args m = .ok vs m') : args.Whole := by
  match args with
  | .last e close =>
    rw [evalArguments] at h
    obtain ⟨_, m₁, he, h⟩ := bind_eq_ok h
    obtain ⟨_, m₂, hclose, -⟩ := bind_eq_ok h
    exact ⟨Expr.whole_of_evalWith e he, Closing.eq_closed_of_takeClosing hclose⟩
  | .more e rest =>
    rw [evalArguments] at h
    obtain ⟨_, m₁, he, h⟩ := bind_eq_ok h
    obtain ⟨_, m₂, -, h⟩ := bind_eq_ok h
    obtain ⟨_, m₃, hrest, -⟩ := bind_eq_ok h
    exact ⟨Expr.whole_of_evalWith e he, Arguments.whole_of_evalArguments rest hrest⟩

/-- So are arguments that were bound to parameters. -/
theorem Arguments.whole_of_bindArguments {m m' : Machine} {p : Name} {ps : List Name}
    {params params' : Bindings} (args : Arguments)
    (h : bindArguments body p ps args params m = .ok params' m') :
    args.Whole := by
  match args with
  | .last e close =>
    rw [bindArguments] at h
    obtain ⟨_, m₁, he, h⟩ := bind_eq_ok h
    obtain ⟨_, m₂, -, h⟩ := bind_eq_ok h
    split at h
    · obtain ⟨_, m₃, hclose, -⟩ := bind_eq_ok h
      exact ⟨Expr.whole_of_evalWith e he, Closing.eq_closed_of_takeClosing hclose⟩
    · cases h
    · cases h
  | .more e rest =>
    rw [bindArguments] at h
    obtain ⟨_, m₁, he, h⟩ := bind_eq_ok h
    obtain ⟨_, m₂, -, h⟩ := bind_eq_ok h
    split at h
    · cases h
    · obtain ⟨_, m₃, -, hrest⟩ := bind_eq_ok h
      exact ⟨Expr.whole_of_evalWith e he, Arguments.whole_of_bindArguments rest hrest⟩

end

end Evaluation

/-! ### What a whole expression was read from -/

/-- The tokens `rest` are left of `tokens` when tokens inside a statement are taken. -/
def Leaves (tokens rest : List Token) : Prop :=
  ∃ used, tokens = used ++ rest ∧ ∀ t ∈ used, t.isInner = true

namespace Leaves

variable {tokens rest rest' : List Token} {t : Token}

theorem refl (tokens : List Token) : Leaves tokens tokens :=
  ⟨[], rfl, fun _ h => absurd h List.not_mem_nil⟩

theorem trans (h : Leaves tokens rest) (h' : Leaves rest rest') : Leaves tokens rest' := by
  obtain ⟨used, rfl, hused⟩ := h
  obtain ⟨used', rfl, hused'⟩ := h'
  refine ⟨used ++ used', (List.append_assoc _ _ _).symm, fun t ht => ?_⟩
  rcases List.mem_append.mp ht with ht | ht
  · exact hused t ht
  · exact hused' t ht

theorem cons (ht : t.isInner = true) (h : Leaves tokens rest) : Leaves (t :: tokens) rest :=
  trans ⟨[t], rfl, fun s hs => by rwa [List.mem_singleton.mp hs]⟩ h

/-- A closing parenthesis stands inside a statement. -/
theorem closing (h : Closing.ofTokens tokens = .closed) :
    Leaves tokens (tokens.drop (Closing.ofTokens tokens).width) := by
  rw [h]
  unfold Closing.ofTokens at h
  split at h
  · cases h
  · exact cons rfl (refl _)
  · cases h

/-- What is taken is as long as what is given is longer than what is left. -/
theorem isInner_take (h : Leaves tokens rest) {n : Nat} (hn : n + rest.length = tokens.length) :
    ∀ t ∈ tokens.take n, t.isInner = true := by
  obtain ⟨used, rfl, hused⟩ := h
  rw [List.length_append] at hn
  rwa [List.take_left' (by omega)]

end Leaves

theorem BinaryOp.isInner_of_ofToken? {t : Token} {op : BinaryOp}
    (h : BinaryOp.ofToken? t = some op) : t.isInner = true := by
  unfold BinaryOp.ofToken? at h
  split at h
  all_goals cases h
  all_goals rfl

theorem UnaryOp.isInner_of_ofToken? {t : Token} {op : UnaryOp}
    (h : UnaryOp.ofToken? t = some op) : t.isInner = true := by
  unfold UnaryOp.ofToken? at h
  split at h
  all_goals cases h
  all_goals rfl

-- The recursion is that of the reading functions.
mutual

theorem Expr.leaves_readAt (level : Nat) (tokens : List Token)
    (h : (Expr.readAt level tokens).phrase.Whole) :
    Leaves tokens (Expr.readAt level tokens).rest := by
  rw [Expr.readAt] at h ⊢
  dsimp only at h ⊢
  have hwhole := Expr.leaves_readOperators level (Expr.readOperand tokens).phrase
    (Expr.readOperand tokens).rest h
  exact (Expr.leaves_readOperand tokens hwhole.1).trans hwhole.2
termination_by (tokens.length, 2)
decreasing_by
  · rcases Nat.lt_or_eq_of_le (Expr.readOperand tokens).rest_le with h | h
    · exact Prod.Lex.left _ _ h
    · rw [h]; exact Prod.Lex.right _ (by omega)
  · exact Prod.Lex.right _ (by omega)

/-- The left operand is part of what is read. -/
theorem Expr.leaves_readOperators (level : Nat) (left : Expr) (tokens : List Token)
    (h : (Expr.readOperators level left tokens).phrase.Whole) :
    left.Whole ∧ Leaves tokens (Expr.readOperators level left tokens).rest := by
  match tokens with
  | [] =>
    rw [Expr.readOperators] at h ⊢
    exact ⟨h, .refl _⟩
  | t :: rest =>
    rw [Expr.readOperators] at h ⊢
    cases hop : BinaryOp.ofToken? t with
    | none =>
      rw [hop] at h
      exact ⟨h, .refl _⟩
    | some op =>
      rw [hop] at h
      by_cases hlevel : level ≤ op.level
      · simp only [if_pos hlevel] at h ⊢
        have hwhole := Expr.leaves_readOperators level
          (.binary op left (Expr.readAt (op.level + 1) rest).phrase)
          (Expr.readAt (op.level + 1) rest).rest h
        obtain ⟨⟨hleft, hright⟩, hrest⟩ := hwhole
        have hoperand := Expr.leaves_readAt (op.level + 1) rest hright
        exact ⟨hleft, (hoperand.trans hrest).cons (BinaryOp.isInner_of_ofToken? hop)⟩
      · simp only [if_neg hlevel] at h ⊢
        exact ⟨h, .refl _⟩
termination_by (tokens.length, 1)
decreasing_by
  · exact Prod.Lex.left _ _ (Nat.lt_succ_of_le (Expr.readAt (op.level + 1) rest).rest_le)
  · exact Prod.Lex.left _ _ (by simp)

theorem Expr.leaves_readOperand (tokens : List Token)
    (h : (Expr.readOperand tokens).phrase.Whole) :
    Leaves tokens (Expr.readOperand tokens).rest := by
  match tokens with
  | [] =>
    rw [Expr.readOperand]
    exact .refl _
  | t :: rest =>
    unfold Expr.readOperand at h ⊢
    split at h
    · next op hop =>
      exact (Expr.leaves_readOperand rest h).cons (UnaryOp.isInner_of_ofToken? hop)
    · split at h
      · exact .cons rfl (.refl _)
      · exact .cons rfl (.refl _)
      · obtain ⟨hinner, hclose⟩ := h
        exact .cons rfl ((Expr.leaves_readAt 0 rest hinner).trans (.closing hclose))
      · next name rest' _ =>
        exact .cons rfl (.cons rfl (Arguments.leaves_read rest' h))
      · exact .cons rfl (.refl _)
      · exact h.elim
termination_by (tokens.length, 0)
decreasing_by
  · exact Prod.Lex.left _ _ (by simp only [List.length_cons]; omega)
  · exact Prod.Lex.left _ _ (by simp only [List.length_cons]; omega)
  · next hrest => exact Prod.Lex.left _ _ (by simp only [hrest, List.length_cons]; omega)

theorem Arguments.leaves_read (tokens : List Token)
    (h : (Arguments.read tokens).phrase.Whole) : Leaves tokens (Arguments.read tokens).rest := by
  rw [Arguments.read] at h ⊢
  split at h
  · next rest hcomma =>
    obtain ⟨hfirst, hothers⟩ := h
    have htaken := Expr.leaves_readAt 0 tokens hfirst
    rw [hcomma] at htaken
    exact htaken.trans (.cons rfl (Arguments.leaves_read rest hothers))
  · obtain ⟨hfirst, hclose⟩ := h
    exact (Expr.leaves_readAt 0 tokens hfirst).trans (.closing hclose)
termination_by (tokens.length, 3)
decreasing_by
  · exact Prod.Lex.right _ (by omega)
  · next hcomma _ _ =>
    have hle := (Expr.readAt 0 tokens).rest_le
    rw [hcomma, List.length_cons] at hle
    exact Prod.Lex.left _ _ (by omega)
  · exact Prod.Lex.right _ (by omega)

end

/-- The tokens that a whole expression takes stand inside a statement. -/
theorem Expr.isInner_of_whole {tokens : List Token} (h : (Expr.read tokens).Whole) :
    ∀ t ∈ tokens.take (Expr.read tokens).width, t.isInner = true :=
  (Expr.leaves_readAt 0 tokens h).isInner_take (Expr.behind_readAt 0 tokens).length

/-- So do the tokens that a whole argument list takes. -/
theorem Arguments.isInner_of_whole {tokens : List Token}
    (h : (Arguments.read tokens).phrase.Whole) :
    ∀ t ∈ tokens.take (Arguments.read tokens).phrase.width, t.isInner = true :=
  (Arguments.leaves_read tokens h).isInner_take (Arguments.behind_read tokens).length

end LineBasic
