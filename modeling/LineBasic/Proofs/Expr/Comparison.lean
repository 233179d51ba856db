import LineBasic.Proofs.Number.Value
import Mathlib.Data.List.Lex
import Mathlib.Order.Compare

/-!
# Comparisons

All six comparisons read one order off two strict tests. Strings are ordered as the lists of their
bytes, and numbers by their values, both linearly, so that one of the tests holds of operands that
differ. The exception is a NaN, of which neither test holds: it counts as equal to every number.
Equality and `<=` are therefore transitive as long as no NaN stands in between, and a NaN in between
makes any two numbers seem equal to a third one.

## Main definitions

* `Comparison.Gives` — the result of a comparison
* `Value.IsNaN` — the value that is not comparable

## Main results

* `Value.compareStrings_compares`, `Value.compareNumbers_compares` — the orders that are tested
* `comparisons_preorder` — what holds of all values, and what of a NaN in between
-/

namespace LineBasic

namespace Value

/-! ### The two orders -/

/-- The bytes of a string as numbers. -/
def codes (s : Bytes) : List Nat :=
  s.map UInt8.toNat

theorem lt_iff_codes {s t : Bytes} : Bytes.lt s t = true ↔ codes s < codes t := by
  induction s generalizing t with
  | nil =>
    cases t with
    | nil => simp [Bytes.lt, codes]
    | cons b t => simp [Bytes.lt, codes]
  | cons a s ih =>
    cases t with
    | nil => simp [Bytes.lt, codes]
    | cons b t =>
      have hrest := ih (t := t)
      simp only [codes] at hrest
      simp [Bytes.lt, codes, hrest, List.cons_lt_cons_iff, UInt8.lt_iff_toNat_lt, UInt8.toNat_inj]

theorem compares_of_tests {α : Type*} [LinearOrder α] {a b : α} {p q : Prop} [Decidable p]
    [Decidable q] (hp : p ↔ a < b) (hq : q ↔ b < a) :
    (if p then Ordering.lt else if q then .gt else .eq).Compares a b := by
  rcases lt_trichotomy a b with h | rfl | h
  · rwa [if_pos (hp.mpr h)]
  · rw [if_neg (by simp [hp]), if_neg (by simp [hq])]
    rfl
  · rwa [if_neg (by simp [hp, h.le]), if_pos (hq.mpr h)]

theorem compareStrings_compares (s t : Bytes) :
    (compareStrings s t).Compares (codes s) (codes t) :=
  compares_of_tests lt_iff_codes lt_iff_codes

theorem compareNumbers_compares {x y : Float} {a b : Number.Extended}
    (hx : Number.value? x = some a) (hy : Number.value? y = some b) :
    (compareNumbers x y).Compares a b :=
  compares_of_tests (Number.lt_iff hx hy) (Number.lt_iff hy hx)

/-- A NaN counts as equal to every number. -/
theorem compareNumbers_of_isNaN {x y : Float} (h : x.isNaN = true ∨ y.isNaN = true) :
    compareNumbers x y = .eq := by
  rcases h with hx | hy
  · obtain ⟨hlt, hgt⟩ := Number.not_lt_of_isNaN hx y
    rw [compareNumbers, if_neg hlt, if_neg hgt]
  · obtain ⟨hgt, hlt⟩ := Number.not_lt_of_isNaN hy x
    rw [compareNumbers, if_neg hlt, if_neg hgt]

/-! ### Orders in a row -/

/-- The value that is not comparable. -/
def IsNaN : Value → Prop
  | .num x => x.isNaN = true
  | .str _ => False

theorem exists_compare {v w : Value} (h : v.isString = w.isString) : ∃ o, v.compare w = .ok o := by
  cases v with
  | num x =>
    cases w with
    | num y => exact ⟨_, rfl⟩
    | str t => cases h
  | str s =>
    cases w with
    | num y => cases h
    | str t => exact ⟨_, rfl⟩

/-- Of orders in a row the outer one: equal if both are, and not `gt` if none is. -/
structure Chained (o o' o'' : Ordering) : Prop where
  eq : o = .eq → o' = .eq → o'' = .eq
  ne_gt : o ≠ .gt → o' ≠ .gt → o'' ≠ .gt

theorem chained_of_compares {α : Type*} [LinearOrder α] {a b c : α} {o o' o'' : Ordering}
    (hab : o.Compares a b) (hbc : o'.Compares b c) (hac : o''.Compares a c) : Chained o o' o'' := by
  constructor
  · intro h h'
    exact hac.eq_eq.mpr ((hab.eq_eq.mp h).trans (hbc.eq_eq.mp h'))
  · intro h h'
    exact hac.ne_gt.mpr ((hab.ne_gt.mp h).trans (hbc.ne_gt.mp h'))

theorem chained_compareNumbers (x z : Float) {y : Float} (hy : y.isNaN = false) :
    Chained (compareNumbers x y) (compareNumbers y z) (compareNumbers x z) := by
  cases hx : x.isNaN with
  | true =>
    rw [compareNumbers_of_isNaN (x := x) (y := z) (.inl hx)]
    constructor <;> simp
  | false =>
    cases hz : z.isNaN with
    | true =>
      rw [compareNumbers_of_isNaN (x := x) (y := z) (.inr hz)]
      constructor <;> simp
    | false =>
      obtain ⟨a, ha⟩ := Number.exists_value? hx
      obtain ⟨b, hb⟩ := Number.exists_value? hy
      obtain ⟨c, hc⟩ := Number.exists_value? hz
      exact chained_of_compares (compareNumbers_compares ha hb) (compareNumbers_compares hb hc)
        (compareNumbers_compares ha hc)

theorem chained_compare {v w u : Value} {o o' o'' : Ordering} (hw : ¬w.IsNaN)
    (h : v.compare w = .ok o) (h' : w.compare u = .ok o') (h'' : v.compare u = .ok o'') :
    Chained o o' o'' := by
  cases w with
  | num y =>
    cases v with
    | str s => cases h
    | num x =>
      cases u with
      | str t => cases h'
      | num z =>
        cases h
        cases h'
        cases h''
        exact chained_compareNumbers x z (Bool.eq_false_iff.mpr hw)
  | str t =>
    cases v with
    | num x => cases h
    | str s =>
      cases u with
      | num z => cases h'
      | str r =>
        cases h
        cases h'
        cases h''
        exact chained_of_compares (compareStrings_compares s t) (compareStrings_compares t r)
          (compareStrings_compares s r)

theorem compare_of_isNaN {v w : Value} {o : Ordering} (hnan : v.IsNaN ∨ w.IsNaN)
    (h : v.compare w = .ok o) : o = .eq := by
  cases v with
  | num x =>
    cases w with
    | num y =>
      cases h
      exact compareNumbers_of_isNaN hnan
    | str t => cases h
  | str s =>
    cases w with
    | num y => cases h
    | str t => exact (hnan.elim id id).elim

theorem ofBool_inj {r r' : Bool} : ofBool r = ofBool r' ↔ r = r' := by
  revert r r'
  decide +kernel

end Value

/-! ### The comparisons of the language -/

/-- A comparison gives the value of `r`: 1 if it is true and 0 if it is false. -/
def Comparison.Gives (c : Comparison) (v w : Value) (r : Bool) : Prop :=
  (BinaryOp.compare c).apply v w = .ok (.ofBool r)

theorem Comparison.gives_iff {v w : Value} {o : Ordering} (h : v.compare w = .ok o)
    {c : Comparison} {r : Bool} : c.Gives v w r ↔ c.holds o = r := by
  have happly : (BinaryOp.compare c).apply v w = .ok (.ofBool (c.holds o)) := by
    cases v with
    | num x =>
      cases w with
      | num y => cases h; rfl
      | str t => cases h
    | str s =>
      cases w with
      | num y => cases h
      | str t => cases h; rfl
  rw [Gives, happly, Except.ok.injEq, Value.ofBool_inj]

/-- Values of one type are always comparable. Exactly one of `<`, `=` and `>` holds of them, and the
other comparisons are the negations of these. With a value in between that is no NaN, `=` and `<=`
are transitive; a NaN counts as equal to the values on both sides of it, whatever these are. -/
theorem comparisons_preorder {v w u : Value} (hvw : v.isString = w.isString)
    (hwu : w.isString = u.isString) :
    (∃! c, c ∈ [Comparison.less, .equal, .greater] ∧ c.Gives v w true) ∧
      (∀ r, (Comparison.lessEqual.Gives v w r ↔ Comparison.greater.Gives v w !r) ∧
        (Comparison.greaterEqual.Gives v w r ↔ Comparison.less.Gives v w !r) ∧
        (Comparison.notEqual.Gives v w r ↔ Comparison.equal.Gives v w !r)) ∧
      (¬w.IsNaN → ∀ c ∈ [Comparison.equal, .lessEqual],
        c.Gives v w true → c.Gives w u true → c.Gives v u true) ∧
      (w.IsNaN → ∀ c ∈ [Comparison.equal, .lessEqual], c.Gives v w true ∧ c.Gives w u true) := by
  obtain ⟨o, ho⟩ := Value.exists_compare hvw
  obtain ⟨o', ho'⟩ := Value.exists_compare hwu
  obtain ⟨o'', ho''⟩ := Value.exists_compare (hvw.trans hwu)
  simp only [Comparison.gives_iff ho, Comparison.gives_iff ho', Comparison.gives_iff ho'']
  refine ⟨?_, ?_, ?_, ?_⟩
  · clear ho
    revert o
    decide
  · clear ho
    revert o
    decide
  · intro hw
    obtain ⟨heq, hle⟩ := Value.chained_compare hw ho ho' ho''
    simpa [Comparison.holds] using ⟨heq, hle⟩
  · intro hw
    rw [Value.compare_of_isNaN (.inr hw) ho, Value.compare_of_isNaN (.inl hw) ho']
    decide

/-- The square root of -1, written as a power, is equal to 1 and to 2. -/
theorem comparisons_preorder_root :
    ∃ w, BinaryOp.power.apply (.num (-1)) (.num 0.5) = .ok w ∧
      Comparison.equal.Gives (.num 1) w true ∧ Comparison.equal.Gives w (.num 2) true ∧
      Comparison.equal.Gives (.num 1) (.num 2) false := by
  have hnan : (Value.num (Number.power (-1) 0.5)).IsNaN := by
    rw [Value.IsNaN]
    decide +kernel
  have hone := comparisons_preorder (v := .num 1) (w := .num (Number.power (-1) 0.5)) (u := .num 2)
    rfl rfl
  obtain ⟨-, -, -, hbetween⟩ := hone
  obtain ⟨hleft, hright⟩ := hbetween hnan .equal (by simp)
  have hcompare : (Value.num 1).compare (.num 2) = .ok .lt := by decide +kernel
  exact ⟨_, rfl, hleft, hright, (Comparison.gives_iff hcompare).mpr rfl⟩

end LineBasic
