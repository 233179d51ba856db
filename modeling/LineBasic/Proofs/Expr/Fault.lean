import LineBasic.Machine.Eval
import LineBasic.Proofs.Number.Binary64

/-!
# What expressions can fail with

An expression fails for a few reasons only: its text is wrong, a value has the wrong type or is out
of range, calls nest too deeply, or an array is too large. That a line does not exist is not among
them, and no inconsistency of the machine is.

## Main definitions

* `Cause.inExpression` — the causes that the evaluation of an expression can fail with
* `Cause.Ordinary` — the causes that are no inconsistencies of the machine
* `FailsInExpression` — a result that fails as expressions do

## Main results

* `UnaryOp.failsInExpression`, `BinaryOp.failsInExpression`, `Builtin.failsInExpression` — operators
  and built-in functions
* `Grid.failsInExpression_make`, `Grid.failsInExpression_get`, `Grid.failsInExpression_set` — arrays
-/

namespace LineBasic

/-- The causes that the evaluation of an expression can fail with. -/
def Cause.inExpression : Cause → Bool
  | .unexpected _ | .expected _ | .endOfInput | .typeMismatch | .stackOverflow | .arrayTooLarge
  | .badSubscript | .illegalQuantity | .unimplemented | .divisionByZero => true
  | _ => false

/-- A cause that is no inconsistency of the machine. -/
def Cause.Ordinary (c : Cause) : Prop :=
  c.kind ≠ .internal

theorem Cause.ordinary_of_inExpression {c : Cause} (h : c.inExpression = true) : c.Ordinary := by
  intro hkind
  cases c <;> simp [Cause.inExpression, Cause.kind] at h hkind

/-- A result that fails only as expressions can. -/
def FailsInExpression {α : Type} (r : Except Cause α) : Prop :=
  ∀ c, r = .error c → c.inExpression = true

namespace FailsInExpression

variable {α β : Type}

theorem ok (a : α) : FailsInExpression (.ok a) := nofun

theorem error {c : Cause} (h : c.inExpression = true) :
    FailsInExpression (.error c : Except Cause α) := by
  rintro _ ⟨⟩
  exact h

theorem bind_of_ok {r : Except Cause α} {f : α → Except Cause β} (hr : FailsInExpression r)
    (hf : ∀ a, r = .ok a → FailsInExpression (f a)) : FailsInExpression (r >>= f) := by
  intro c hc
  cases r with
  | ok a => exact hf a rfl c hc
  | error e =>
    cases hc
    exact hr _ rfl

theorem bind {r : Except Cause α} {f : α → Except Cause β} (hr : FailsInExpression r)
    (hf : ∀ a, FailsInExpression (f a)) : FailsInExpression (r >>= f) :=
  hr.bind_of_ok fun a _ => hf a

theorem map {r : Except Cause α} {f : α → β} (hr : FailsInExpression r) :
    FailsInExpression (r.map f) := by
  intro c hc
  cases r with
  | ok a => cases hc
  | error e =>
    cases hc
    exact hr _ rfl

theorem ite {p : Prop} [Decidable p] {r s : Except Cause α} (hr : FailsInExpression r)
    (hs : FailsInExpression s) : FailsInExpression (if p then r else s) := by
  split
  · exact hr
  · exact hs

theorem mapM {f : α → Except Cause β} (hf : ∀ a, FailsInExpression (f a)) (l : List α) :
    FailsInExpression (l.mapM f) := by
  induction l with
  | nil => exact ok []
  | cons a l ih =>
    rw [List.mapM_cons]
    exact (hf a).bind fun _ => ih.bind fun _ => ok _

end FailsInExpression

open FailsInExpression

/-! ### Operators -/

theorem Value.failsInExpression_number (v : Value) : FailsInExpression v.number := by
  cases v with
  | num x => exact ok x
  | str s => exact error rfl

theorem Value.failsInExpression_string (v : Value) : FailsInExpression v.string := by
  cases v with
  | num x => exact error rfl
  | str s => exact ok s

theorem UnaryOp.failsInExpression (op : UnaryOp) (v : Value) : FailsInExpression (op.apply v) := by
  refine (v.failsInExpression_number).bind fun x => ?_
  cases op <;> exact ok _

theorem BinaryOp.failsInExpression (op : BinaryOp) (v w : Value) :
    FailsInExpression (op.apply v w) := by
  rw [BinaryOp.apply.eq_def]
  split
  · rw [BinaryOp.applyNumbers.eq_def]
    split
    case h_7 => exact ite (error rfl) (ok _)
    all_goals exact ok _
  · exact ok _
  · exact ok _
  · exact error rfl

/-! ### Built-in functions -/

theorem Number.failsInExpression_subscript (x : Float) :
    FailsInExpression (Number.subscript x) := by
  rw [Number.subscript]
  split
  · exact ite (error rfl) (ite (error rfl) (ok _))
  · exact ite (error rfl) (error rfl)

theorem Number.failsInExpression_count (x : Float) (n : Nat) :
    FailsInExpression (Number.count x n) := by
  rw [Number.count]
  split
  · exact ite (error rfl) (ok _)
  · exact ite (ok _) (error rfl)

theorem Number.count_le {x : Float} {n k : Nat} (h : Number.count x n = .ok k) : k ≤ n := by
  rw [Number.count] at h
  split at h
  · split at h
    · cases h
    · cases h
      exact Nat.min_le_right _ _
  · split at h
    · cases h
      exact Nat.le_refl n
    · cases h

/-- A number from 1 on asks for something, as long as it is within the length. -/
theorem Number.count_pos {x : Float} {n k : Nat} {i : Int} (h : Number.count x n = .ok k)
    (hfloor : floor? x = some i) (hx : ¬ x < 1) (hi : i ≤ n) : 0 < k := by
  have hpos := one_le_of_not_lt hfloor hx
  rw [Number.count, hfloor] at h
  dsimp only at h
  rw [if_neg (by omega)] at h
  cases h
  omega

theorem Number.failsInExpression_lineNumber (x : Float) :
    FailsInExpression (Number.lineNumber x) := by
  rw [Number.lineNumber]
  split
  · exact ite (ok _) (error rfl)
  · exact error rfl

namespace Builtin

theorem failsInExpression_onNumber (f : Float → Float) (v : Value) :
    FailsInExpression (onNumber f v) :=
  v.failsInExpression_number.map

/-- What is cut out is there. -/
theorem failsInExpression_slice {s : Bytes} {low : Int} {high : Nat} (hlow : 0 ≤ low)
    (hle : low ≤ high) (hhigh : high ≤ s.length) : FailsInExpression (slice s low high) := by
  rw [slice, if_pos ⟨hlow, hle, hhigh⟩]
  exact ok _

theorem failsInExpression_leftOf (s : Bytes) (n : Float) : FailsInExpression (leftOf s n) := by
  refine (Number.failsInExpression_count n s.length).bind_of_ok fun k hk => ?_
  exact failsInExpression_slice (Int.le_refl 0) (Int.natCast_nonneg k) (Number.count_le hk)

theorem failsInExpression_rightOf (s : Bytes) (n : Float) : FailsInExpression (rightOf s n) := by
  refine (Number.failsInExpression_count n s.length).bind_of_ok fun k hk => ?_
  have hcount := Number.count_le hk
  exact failsInExpression_slice (by omega) (by omega) (Nat.le_refl _)

theorem failsInExpression_fromPlace (s : Bytes) (place : Float) :
    FailsInExpression (fromPlace s place) := by
  refine (Number.failsInExpression_count place s.length).bind_of_ok fun start hstart => ?_
  split
  · exact error rfl
  · next hplace =>
    split
    · next i hfloor =>
      split
      · exact ok _
      · next hi =>
        have hpos := Number.count_pos hstart hfloor hplace (Int.not_lt.mp hi)
        have hcount := Number.count_le hstart
        exact (failsInExpression_slice (by omega) (by omega) (Nat.le_refl _)).map
    · exact ok _

theorem failsInExpression_midOf (s : Bytes) (place : Value) (n : Option Value) :
    FailsInExpression (midOf s place n) := by
  refine place.failsInExpression_number.bind fun x => ?_
  refine (failsInExpression_fromPlace s x).bind fun tail => ?_
  cases tail with
  | none => exact ok _
  | some t =>
    cases n with
    | none => exact ok _
    | some n =>
      exact n.failsInExpression_number.bind fun y => failsInExpression_leftOf t y

theorem failsInExpression_charOf (x : Float) : FailsInExpression (charOf x) := by
  rw [charOf]
  split
  · exact ite (ok _) (error rfl)
  · exact error rfl

/-- A built-in function cuts nothing out of a string that is not there. -/
theorem failsInExpression (b : Builtin) (args : List Value) :
    FailsInExpression (b.value args) := by
  fun_cases b.value args
  case case9 v => exact v.failsInExpression_number.bind fun _ => ite (error rfl) (ok _)
  case case10 v => exact v.failsInExpression_number.bind fun _ => ite (error rfl) (ok _)
  case case11 v => exact v.failsInExpression_string.map
  case case12 v =>
    refine v.failsInExpression_string.bind fun s => ?_
    cases s with
    | nil => exact error rfl
    | cons c s => exact ok _
  case case13 v =>
    exact v.failsInExpression_number.bind fun x => (failsInExpression_charOf x).bind fun _ => ok _
  case case14 v => exact v.failsInExpression_number.map
  case case15 v => exact v.failsInExpression_string.map
  case case16 v n =>
    exact v.failsInExpression_string.bind fun s => n.failsInExpression_number.bind fun x =>
      (failsInExpression_leftOf s x).bind fun _ => ok _
  case case17 v n =>
    exact v.failsInExpression_string.bind fun s => n.failsInExpression_number.bind fun x =>
      (failsInExpression_rightOf s x).bind fun _ => ok _
  case case18 v place =>
    exact v.failsInExpression_string.bind fun s =>
      (failsInExpression_midOf s place none).bind fun _ => ok _
  case case19 v place n =>
    exact v.failsInExpression_string.bind fun s =>
      (failsInExpression_midOf s place (some n)).bind fun _ => ok _
  case case20 => exact error rfl
  all_goals exact failsInExpression_onNumber _ _

theorem failsInExpression_draws (v : Value) : FailsInExpression (draws v) :=
  v.failsInExpression_number.bind fun _ => ite (error rfl) (ok _)

end Builtin

/-! ### Arrays -/

theorem Machine.failsInExpression_indices (args : List Value) : FailsInExpression (indices args) :=
  mapM (fun v => v.failsInExpression_number.bind fun x =>
    (Number.failsInExpression_subscript x).bind fun _ => ok _) args

namespace Grid

theorem failsInExpression_count (bound total : Int) (sizes : List Int) :
    FailsInExpression (count bound total sizes) := by
  induction sizes generalizing total with
  | nil => exact ite (error rfl) (ok _)
  | cons n sizes ih => exact ite (error rfl) (ite (error rfl) (ih _))

theorem failsInExpression_make (strings : Bool) (sizes : List Int) (bound : Int) :
    FailsInExpression (make strings sizes bound) :=
  (failsInExpression_count bound 1 sizes).map

/-- An element lies within the rows in front of it and its own. -/
theorem offsetFrom_lt {before total place : Nat} {sizes : List Nat} {index : List Int}
    (hbefore : before < total) (h : offsetFrom before sizes index = some place) :
    place < sizes.foldl (· * ·) total := by
  induction sizes generalizing before total index with
  | nil =>
    cases index with
    | nil =>
      cases h
      exact hbefore
    | cons i index => cases h
  | cons n sizes ih =>
    cases index with
    | nil => cases h
    | cons i index =>
      rw [offsetFrom] at h
      split at h
      · next hi =>
        simp only [Bool.and_eq_true, decide_eq_true_eq] at hi
        refine ih ?_ h
        calc before * n + i.toNat < before * n + n := by omega
          _ = (before + 1) * n := by rw [Nat.add_mul, Nat.one_mul]
          _ ≤ total * n := Nat.mul_le_mul_right n hbefore
      · cases h

/-- No element is outside the array. -/
theorem failsInExpression_place (g : Grid) (index : List Int) :
    FailsInExpression (g.place index) := by
  rw [Grid.place]
  split
  · next place hoffset =>
    have hplace : place < g.size := offsetFrom_lt Nat.zero_lt_one hoffset
    rw [if_pos hplace]
    exact ok _
  · exact error rfl

theorem failsInExpression_get (g : Grid) (index : List Int) : FailsInExpression (g.get index) :=
  (g.failsInExpression_place index).map

theorem failsInExpression_set (g : Grid) (index : List Int) (v : Value) :
    FailsInExpression (g.set index v) := by
  rw [Grid.set]
  split
  · exact error rfl
  · exact (g.failsInExpression_place index).map

end Grid

end LineBasic
