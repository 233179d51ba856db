import LineBasic.Expr.Operator
import LineBasic.Proofs.Number.Binary64
import Mathlib.Algebra.Order.Field.Power
import Mathlib.Algebra.Order.Field.Rat
import Mathlib.Order.WithBot
import Mathlib.Tactic.FieldSimp
import Mathlib.Tactic.GCongr
import Mathlib.Tactic.Linarith
import Mathlib.Tactic.NormNum
import Mathlib.Tactic.Positivity
import Mathlib.Tactic.Ring

/-!
# The values of numbers

A number that is no NaN stands for a rational number, or for one of the two infinities. Two numbers
are compared by their values: of two canonical forms with different exponents the one with the
larger exponent stands for more, because its mantissa has all its bits.

A sum is rounded. Where its value has a canonical form nothing is lost, and every integer of at most
`2 ^ 53` has one, so that the sums of such integers are exact.

## Main definitions

* `Number.value?` — the value that a number stands for
* `Number.Is` — the numbers that stand for an integer
* `Number.Exact` — the integers that some number stands for

## Main results

* `Number.lt_iff`, `Number.le_iff` — numbers are compared by their values
* `Number.is_ofInt_of_exact`, `Number.is_ofInt` — integers that are not rounded
* `Number.is_add`, `Number.is_neg` — the sums of integers and their opposites are exact
-/

namespace LineBasic.Number

open Float.Model Float.Model.UnpackedFloat

/-- The rational numbers and two infinities. -/
abbrev Extended := WithBot (WithTop ℚ)

/-- The rational number of a sign, a mantissa and an exponent. -/
def rational (s : Sign) (m : Nat) (e : Int) : ℚ :=
  (s.apply m : Int) * (2 : ℚ) ^ e

/-- The value of a form; that of no number is missing. -/
def valueOf? : UnpackedFloat → Option Extended
  | .notANumber => none
  | .infinity .positive => some ⊤
  | .infinity .negative => some ⊥
  | .zero _ => some ((0 : ℚ) : WithTop ℚ)
  | .finite s m e _ => some ((rational s m e : ℚ) : WithTop ℚ)

theorem valueOf?_finite (s : Sign) (m : Nat) (e : Int) (h : 0 < m) :
    valueOf? (.finite s m e h) = some ((rational s m e : ℚ) : WithTop ℚ) :=
  rfl

/-- The value that a number stands for. -/
def value? (x : Float) : Option Extended :=
  valueOf? x.toModel.unpack

/-! ### Order -/

theorem rational_positive (m : Nat) (e : Int) : rational .positive m e = m * (2 : ℚ) ^ e := by
  simp [rational, Sign.apply]

theorem rational_negative (m : Nat) (e : Int) : rational .negative m e = -(m * (2 : ℚ) ^ e) := by
  simp [rational, Sign.apply]

theorem rational_pos {m : Nat} (hm : 0 < m) (e : Int) : 0 < rational .positive m e := by
  rw [rational_positive]
  positivity

theorem rational_neg {m : Nat} (hm : 0 < m) (e : Int) : rational .negative m e < 0 := by
  rw [rational_negative, neg_lt_zero]
  positivity

/-- Of two canonical forms the one with the larger exponent stands for more. -/
theorem Canonical.lt_of_exponent_lt {m m' : Nat} {e e' : Int} (h : Canonical m e)
    (h' : Canonical m' e') (he : e < e') : (m : ℚ) * 2 ^ e < m' * 2 ^ e' := by
  have hleast := h.least
  have hbits : (m : ℚ) < 2 ^ 53 := by exact_mod_cast h.bits
  have hfull : (2 : ℚ) ^ 52 ≤ m' := by exact_mod_cast h'.full.resolve_left (by omega)
  calc (m : ℚ) * 2 ^ e < 2 ^ 53 * 2 ^ e := by gcongr
    _ = 2 ^ 52 * 2 ^ (e + 1) := by
        rw [zpow_add_one₀ (by norm_num)]
        ring
    _ ≤ 2 ^ 52 * 2 ^ e' := by
        gcongr
        · norm_num
        · omega
    _ ≤ m' * 2 ^ e' := by gcongr

/-- Canonical forms are compared by their exponents first. -/
theorem Canonical.compare_eq {m m' : Nat} {e e' : Int} (h : Canonical m e) (h' : Canonical m' e') :
    (compare e e').then (compare m m') = compare ((m : ℚ) * 2 ^ e) (m' * 2 ^ e') := by
  rcases lt_trichotomy e e' with he | rfl | he
  · simp [compare_lt_iff_lt.mpr he, compare_lt_iff_lt.mpr (h.lt_of_exponent_lt h' he)]
  · have hpow : (0 : ℚ) < 2 ^ e := by positivity
    rw [compare_eq_iff_eq.mpr rfl, Ordering.eq_then]
    rcases lt_trichotomy m m' with hm | rfl | hm
    · have hvalue : (m : ℚ) * 2 ^ e < m' * 2 ^ e := by gcongr
      rw [compare_lt_iff_lt.mpr hm, compare_lt_iff_lt.mpr hvalue]
    · rw [compare_eq_iff_eq.mpr rfl, compare_eq_iff_eq.mpr rfl]
    · have hvalue : (m' : ℚ) * 2 ^ e < m * 2 ^ e := by gcongr
      rw [compare_gt_iff_gt.mpr hm, compare_gt_iff_gt.mpr hvalue]
  · simp [compare_gt_iff_gt.mpr he, compare_gt_iff_gt.mpr (h'.lt_of_exponent_lt h he)]

theorem compare_neg (p q : ℚ) : compare (-p) (-q) = (compare p q).swap := by
  rcases lt_trichotomy p q with h | rfl | h
  · rw [compare_lt_iff_lt.mpr h, compare_gt_iff_gt.mpr (neg_lt_neg h), Ordering.swap]
  · rw [compare_eq_iff_eq.mpr rfl, compare_eq_iff_eq.mpr rfl, Ordering.swap]
  · rw [compare_gt_iff_gt.mpr h, compare_lt_iff_lt.mpr (neg_lt_neg h), Ordering.swap]

theorem compare_coe (p q : ℚ) :
    compare ((p : WithTop ℚ) : Extended) ((q : WithTop ℚ) : Extended) = compare p q := by
  rcases lt_trichotomy p q with h | rfl | h
  · rw [compare_lt_iff_lt.mpr h, compare_lt_iff_lt.mpr (by simpa using h)]
  · rw [compare_eq_iff_eq.mpr rfl, compare_eq_iff_eq.mpr rfl]
  · rw [compare_gt_iff_gt.mpr h, compare_gt_iff_gt.mpr (by simpa using h)]

/-- The order of two forms that hold values is that of the values. -/
theorem compare_finite {s s' : Sign} {m m' : Nat} {e e' : Int} (h : Canonical m e)
    (h' : Canonical m' e') :
    UnpackedFloat.compare (.finite s m e h.pos) (.finite s' m' e' h'.pos) =
      some (compare (rational s m e) (rational s' m' e')) := by
  cases s with
  | negative =>
    cases s' with
    | negative =>
      rw [rational_negative, rational_negative, compare_neg, ← h.compare_eq h']
      rfl
    | positive =>
      have hlt := (rational_neg h.pos e).trans (rational_pos h'.pos e')
      rw [compare_lt_iff_lt.mpr hlt]
      rfl
  | positive =>
    cases s' with
    | negative =>
      have hlt := (rational_neg h'.pos e').trans (rational_pos h.pos e)
      rw [compare_gt_iff_gt.mpr hlt]
      rfl
    | positive =>
      rw [rational_positive, rational_positive, ← h.compare_eq h']
      rfl

theorem compare_zero_finite {s t : Sign} {m : Nat} {e : Int} (h : 0 < m) :
    UnpackedFloat.compare (.zero t) (.finite s m e h) = some (compare 0 (rational s m e)) := by
  cases s with
  | negative => rw [compare_gt_iff_gt.mpr (rational_neg h e)]; rfl
  | positive => rw [compare_lt_iff_lt.mpr (rational_pos h e)]; rfl

theorem compare_finite_zero {s t : Sign} {m : Nat} {e : Int} (h : 0 < m) :
    UnpackedFloat.compare (.finite s m e h) (.zero t) = some (compare (rational s m e) 0) := by
  cases s with
  | negative => rw [compare_lt_iff_lt.mpr (rational_neg h e)]; rfl
  | positive => rw [compare_gt_iff_gt.mpr (rational_pos h e)]; rfl

/-- A form with a rational value is a zero or has a mantissa. -/
theorem compare_unpack {x y : Float} {a b : Extended} (hx : value? x = some a)
    (hy : value? y = some b) : x.toModel.unpack.compare y.toModel.unpack = some (compare a b) := by
  rw [value?] at hx hy
  cases hu : x.toModel.unpack with
  | notANumber => cases hu ▸ hx
  | infinity s =>
    rw [hu] at hx
    cases hv : y.toModel.unpack with
    | notANumber => cases hv ▸ hy
    | infinity t =>
      rw [hv] at hy
      cases s <;> cases t <;> cases hx <;> cases hy <;> rfl
    | zero t =>
      rw [hv] at hy
      cases s <;> cases hx <;> cases hy <;> rfl
    | finite t m e h =>
      rw [hv] at hy
      cases s <;> cases hx <;> cases hy <;> rfl
  | zero s =>
    rw [hu] at hx
    cases hx
    cases hv : y.toModel.unpack with
    | notANumber => cases hv ▸ hy
    | infinity t =>
      rw [hv] at hy
      cases t <;> cases hy <;> rfl
    | zero t =>
      rw [hv] at hy
      cases hy
      rw [compare_eq_iff_eq.mpr rfl]
      rfl
    | finite t m e h =>
      rw [hv] at hy
      cases hy
      rw [compare_coe, compare_zero_finite h]
  | finite s m e h =>
    rw [hu] at hx
    cases hx
    cases hv : y.toModel.unpack with
    | notANumber => cases hv ▸ hy
    | infinity t =>
      rw [hv] at hy
      cases s <;> cases t <;> cases hy <;> rfl
    | zero t =>
      rw [hv] at hy
      cases hy
      rw [compare_coe, compare_finite_zero h]
    | finite t m' e' h' =>
      rw [hv] at hy
      cases hy
      rw [compare_coe, compare_finite (canonical_of_unpack hu) (canonical_of_unpack hv)]

theorem lt_iff_compare {x y : Float} :
    x < y ↔ x.toModel.unpack.compare y.toModel.unpack = some .lt := by
  constructor
  · intro h
    exact beq_iff_eq.mp (of_decide_eq_true h)
  · intro h
    exact decide_eq_true (beq_iff_eq.mpr h)

/-- Numbers are compared by their values. -/
theorem lt_iff {x y : Float} {a b : Extended} (hx : value? x = some a) (hy : value? y = some b) :
    x < y ↔ a < b := by
  rw [lt_iff_compare, compare_unpack hx hy, Option.some.injEq, compare_lt_iff_lt]

theorem le_iff_compare {x y : Float} :
    x ≤ y ↔ (x.toModel.unpack.compare y.toModel.unpack).any (·.isLE) = true := by
  constructor
  · intro h
    exact of_decide_eq_true h
  · intro h
    exact decide_eq_true h

theorem le_iff {x y : Float} {a b : Extended} (hx : value? x = some a) (hy : value? y = some b) :
    x ≤ y ↔ a ≤ b := by
  rw [le_iff_compare, compare_unpack hx hy, Option.any_some, Ordering.isLE_iff_ne_gt]
  exact compare_le_iff_le

theorem isNaN_iff {x : Float} : x.isNaN = true ↔ value? x = none := by
  rw [Float.isNaN, Float.Model.isNaN, value?]
  cases x.toModel.unpack with
  | notANumber => exact iff_of_true rfl rfl
  | infinity s => cases s <;> exact iff_of_false Bool.false_ne_true (Option.some_ne_none _)
  | zero s => exact iff_of_false Bool.false_ne_true (Option.some_ne_none _)
  | finite s m e h => exact iff_of_false Bool.false_ne_true (Option.some_ne_none _)

theorem exists_value? {x : Float} (hx : x.isNaN = false) : ∃ a, value? x = some a := by
  apply Option.ne_none_iff_exists'.mp
  intro hnone
  rw [isNaN_iff.mpr hnone] at hx
  contradiction

theorem isNaN_eq_false {x : Float} {a : Extended} (h : value? x = some a) : x.isNaN = false := by
  rw [Bool.eq_false_iff, Ne, isNaN_iff, h]
  exact Option.some_ne_none a

/-- A NaN is not below any number, and no number is below it. -/
theorem not_lt_of_isNaN {x : Float} (hx : x.isNaN = true) (y : Float) : ¬ x < y ∧ ¬ y < x := by
  have hu : x.toModel.unpack = .notANumber := by
    rw [isNaN_iff, value?] at hx
    cases hu : x.toModel.unpack with
    | notANumber => rfl
    | infinity s => cases s <;> exact absurd (hu ▸ hx) (Option.some_ne_none _)
    | zero s => exact absurd (hu ▸ hx) (Option.some_ne_none _)
    | finite s m e h => exact absurd (hu ▸ hx) (Option.some_ne_none _)
  rw [lt_iff_compare, lt_iff_compare, hu]
  constructor
  · intro h
    contradiction
  · intro h
    cases hy : y.toModel.unpack <;> rw [hy] at h <;> contradiction

/-! ### Sums of integers -/

theorem shift_value (m k : Nat) (e : Int) :
    ((m * 2 ^ k : Nat) : ℚ) * 2 ^ (e - k) = m * 2 ^ e := by
  rw [zpow_sub₀ (by norm_num), zpow_natCast]
  push_cast
  field_simp

/-- Of two forms with one value the finer one is the other, shifted. -/
theorem eq_shift_of_value {m n k : Nat} {e : Int} (h : (n : ℚ) * 2 ^ (e - k) = m * 2 ^ e) :
    n = m * 2 ^ k := by
  have hpow : (2 : ℚ) ^ (e - k) ≠ 0 := by positivity
  rw [← shift_value m k e] at h
  exact_mod_cast mul_right_cancel₀ hpow h

theorem round_eq_roundWithAccuracy (s : Sign) {m k : Nat} {e : Int} (h : target m e = e - k) :
    UnpackedFloat.round Format.binary64 s m e =
      roundWithAccuracy Format.binary64 s (m * 2 ^ k) (e - k) .exact := by
  rw [target] at h
  simp [UnpackedFloat.round, decreaseExponent, h, Nat.shiftLeft_eq]

/-- A form with enough bits is not brought to a smaller exponent first. -/
theorem round_of_le_target (s : Sign) {m : Nat} {e : Int} (h : e ≤ target m e) :
    UnpackedFloat.round Format.binary64 s m e = roundWithAccuracy Format.binary64 s m e .exact := by
  rw [target] at h
  have hshift : (e - Format.binary64.targetExponent (totalExponent m e)).toNat = 0 := by omega
  simp [UnpackedFloat.round, decreaseExponent, hshift]

/-- A value that has a canonical form is rounded to it from every form. -/
theorem round_eq (s : Sign) {m n : Nat} {e f : Int} (hc : Canonical m e)
    (hvalue : (n : ℚ) * 2 ^ f = m * 2 ^ e) :
    UnpackedFloat.round Format.binary64 s n f = .finite s m e hc.pos := by
  rcases le_total f e with he | he
  · -- the form is finer than the canonical one, and stays so
    obtain ⟨k, hk⟩ := Int.eq_ofNat_of_zero_le (show 0 ≤ e - f by omega)
    obtain rfl : f = e - k := by omega
    obtain rfl := eq_shift_of_value hvalue
    have htarget : target (m * 2 ^ k) (e - k) = e := by
      rw [target_mul_pow (Nat.ne_of_gt hc.pos), hc.target]
    rw [round_of_le_target s (by omega), round_exact s hc k]
  · -- the form is coarser, and is brought to the canonical exponent first
    obtain ⟨k, hk⟩ := Int.eq_ofNat_of_zero_le (show 0 ≤ f - e by omega)
    obtain rfl : e = f - k := by omega
    obtain rfl := eq_shift_of_value hvalue.symm
    have hn : n ≠ 0 := by
      rintro rfl
      simpa using hc.pos
    have htarget : target n f = f - k := by
      rw [← target_mul_pow hn f k, hc.target]
    rw [round_eq_roundWithAccuracy s htarget, round_canonical s hc]

/-- The integers of at most 53 bits have canonical forms. -/
theorem exists_canonical {n : Nat} (hn : 0 < n) (hmax : n ≤ 2 ^ 53) :
    ∃ m e, Canonical m e ∧ (m : ℚ) * 2 ^ e = n := by
  rcases Nat.lt_or_ge n (2 ^ 53) with hlt | hge
  · have hlog : n.log2 < 53 := (Nat.log2_lt (Nat.ne_of_gt hn)).mpr hlt
    obtain ⟨k, hk⟩ : ∃ k, k + n.log2 = 52 := ⟨52 - n.log2, by omega⟩
    have hlow : 2 ^ 52 ≤ n * 2 ^ k := by
      calc 2 ^ 52 = 2 ^ n.log2 * 2 ^ k := by rw [← Nat.pow_add, Nat.add_comm, hk]
        _ ≤ n * 2 ^ k := Nat.mul_le_mul_right _ (Nat.log2_self_le (Nat.ne_of_gt hn))
    have hhigh : n * 2 ^ k < 2 ^ 53 := by
      calc n * 2 ^ k < 2 ^ (n.log2 + 1) * 2 ^ k :=
            Nat.mul_lt_mul_of_pos_right Nat.lt_log2_self (Nat.two_pow_pos k)
        _ = 2 ^ 53 := by rw [← Nat.pow_add]; congr 1; omega
    refine ⟨n * 2 ^ k, 0 - k, ⟨by omega, hhigh, by omega, by omega, .inr hlow⟩, ?_⟩
    rw [shift_value, zpow_zero, mul_one]
  · obtain rfl : n = 2 ^ 53 := by omega
    refine ⟨2 ^ 52, 1, ⟨by decide, by decide, by decide, by decide, .inr (by decide)⟩, ?_⟩
    norm_num

/-- The magnitudes of integers that some number stands for. -/
def Exact (n : Nat) : Prop :=
  n = 0 ∨ ∃ m e, Canonical m e ∧ (m : ℚ) * 2 ^ e = n

theorem exact_of_le {n : Nat} (hmax : n ≤ 2 ^ 53) : Exact n := by
  rcases Nat.eq_zero_or_pos n with hn | hn
  · exact .inl hn
  · exact .inr (exists_canonical hn hmax)

/-- Whether a number stands for an integer. -/
def Is (x : Float) (i : Int) : Prop :=
  value? x = some ((i : ℚ) : WithTop ℚ)

/-- A form that holds an integer, and which is not changed by packing. -/
def Holds (u : UnpackedFloat) (i : Int) : Prop :=
  valueOf? u = some ((i : ℚ) : WithTop ℚ) ∧ (Float.Model.pack u).unpack = u

theorem holds_zero (s : Sign) : Holds (.zero s) 0 := by
  constructor
  · exact congrArg (fun q : ℚ => some (q : Extended)) Int.cast_zero.symm
  · cases s <;> rfl

theorem is_pack {u : UnpackedFloat} {i : Int} (h : Holds u i) : Is (Float.ofModel (.pack u)) i := by
  obtain ⟨hvalue, hpack⟩ := h
  have hunpack : (Float.ofModel (.pack u)).toModel.unpack = u := hpack
  rw [Is, value?, hunpack, hvalue]

theorem holds_round (s : Sign) {m n : Nat} {e : Int} (hn : 0 < n) (hexact : Exact n)
    (hvalue : (m : ℚ) * 2 ^ e = n) :
    Holds (UnpackedFloat.round Format.binary64 s m e) (s.apply n) := by
  obtain ⟨m', e', hc, hm'⟩ := hexact.resolve_left (Nat.ne_of_gt hn)
  rw [round_eq s hc (hvalue.trans hm'.symm)]
  refine ⟨?_, unpack_pack s hc⟩
  cases s with
  | negative =>
    rw [valueOf?_finite, rational_negative, hm']
    simp [Sign.apply]
  | positive =>
    rw [valueOf?_finite, rational_positive, hm']
    simp [Sign.apply]

/-- Integers that some number stands for are not rounded. -/
theorem holds_normalize {i n : Int} {e : Int} (hvalue : (i : ℚ) * 2 ^ e = n)
    (hexact : Exact n.natAbs) :
    Holds (UnpackedFloat.normalize Format.binary64 i e .positive) n := by
  have hpow : (0 : ℚ) < 2 ^ e := by positivity
  rw [UnpackedFloat.normalize]
  rcases lt_trichotomy i 0 with hi | rfl | hi
  · have hn : n < 0 := by
      have hcast : (i : ℚ) < 0 := by exact_mod_cast hi
      have hneg : (n : ℚ) < 0 := hvalue ▸ mul_neg_of_neg_of_pos hcast hpow
      exact_mod_cast hneg
    obtain ⟨k, hk⟩ := Int.eq_ofNat_of_zero_le (show 0 ≤ -i by omega)
    obtain ⟨l, hl⟩ := Int.eq_ofNat_of_zero_le (show 0 ≤ -n by omega)
    obtain rfl : i = -k := by omega
    obtain rfl : n = -l := by omega
    have habs : (k : ℚ) * 2 ^ e = l := by
      push_cast at hvalue
      linarith
    rw [Int.natAbs_neg, Int.natAbs_natCast] at hexact
    rw [compare_lt_iff_lt.mpr hi]
    simpa [Sign.apply] using holds_round .negative (by omega) hexact habs
  · obtain rfl : n = 0 := by
      have hzero : (n : ℚ) = 0 := by rw [← hvalue, Int.cast_zero, zero_mul]
      exact_mod_cast hzero
    rw [compare_eq_iff_eq.mpr rfl]
    exact holds_zero .positive
  · have hn : 0 < n := by
      have hcast : (0 : ℚ) < i := by exact_mod_cast hi
      have hpos : (0 : ℚ) < n := hvalue ▸ mul_pos hcast hpow
      exact_mod_cast hpos
    obtain ⟨k, rfl⟩ := Int.eq_ofNat_of_zero_le hi.le
    obtain ⟨l, rfl⟩ := Int.eq_ofNat_of_zero_le hn.le
    rw [Int.natAbs_natCast] at hexact
    rw [compare_gt_iff_gt.mpr hi]
    simpa [Sign.apply] using holds_round .positive (by omega) hexact (mod_cast hvalue)

theorem is_ofInt_of_exact {i : Int} (hexact : Exact i.natAbs) : Is (ofInt i) i := by
  have hvalue : (i : ℚ) * 2 ^ (0 : Int) = i := by simp
  exact is_pack (holds_normalize hvalue hexact)

theorem is_ofInt {i : Int} (hmax : i.natAbs ≤ 2 ^ 53) : Is (ofInt i) i :=
  is_ofInt_of_exact (exact_of_le hmax)

theorem is_ofNat {n : Nat} (hmax : n ≤ 2 ^ 53) : Is (ofNat n) n :=
  is_ofInt (by omega)

/-- The form of a number that stands for a rational number. -/
theorem unpack_of_value? {x : Float} {q : ℚ} (h : value? x = some ((q : WithTop ℚ) : Extended)) :
    (∃ s, x.toModel.unpack = .zero s ∧ q = 0) ∨
      ∃ s m e hm, x.toModel.unpack = .finite s m e hm ∧ rational s m e = q := by
  rw [value?] at h
  cases hu : x.toModel.unpack with
  | notANumber => cases hu ▸ h
  | infinity s => cases s <;> cases hu ▸ h
  | zero s =>
    rw [hu] at h
    have hzero : (0 : ℚ) = q := WithTop.coe_injective (WithBot.coe_injective (Option.some.inj h))
    exact .inl ⟨s, rfl, hzero.symm⟩
  | finite s m e hm =>
    rw [hu] at h
    exact .inr ⟨s, m, e, hm, rfl, WithTop.coe_injective (WithBot.coe_injective (Option.some.inj h))⟩

/-- The form of a number that stands for an integer. -/
theorem unpack_of_is {x : Float} {i : Int} (h : Is x i) :
    (∃ s, x.toModel.unpack = .zero s ∧ i = 0) ∨
      ∃ s m e hm, x.toModel.unpack = .finite s m e hm ∧ rational s m e = i := by
  refine (unpack_of_value? h).imp_left ?_
  rintro ⟨s, hs, hzero⟩
  exact ⟨s, hs, Int.cast_eq_zero.mp hzero⟩

/-- A form that is brought to a smaller exponent keeps its value. -/
theorem rational_shift (s : Sign) (m : Nat) {e t : Int} (h : t ≤ e) :
    rational s (m <<< (e - t).toNat) t = rational s m e := by
  obtain ⟨k, hk⟩ := Int.eq_ofNat_of_zero_le (show 0 ≤ e - t by omega)
  obtain rfl : t = e - k := by omega
  have hshift := shift_value m k e
  cases s with
  | negative => simpa [Nat.shiftLeft_eq, rational_negative] using hshift
  | positive => simpa [Nat.shiftLeft_eq, rational_positive] using hshift

/-- The sum of two integers is exact if it has at most 53 bits. -/
theorem is_add {x y : Float} {i j : Int} (hx : Is x i) (hy : Is y j)
    (hmax : (i + j).natAbs ≤ 2 ^ 53) : Is (x + y) (i + j) := by
  have hsum : x + y = Float.ofModel
      (.pack (UnpackedFloat.add Format.binary64 x.toModel.unpack y.toModel.unpack)) := rfl
  rw [hsum]
  obtain ⟨s, hu, rfl⟩ | ⟨s, m, e, hm, hu, hi⟩ := unpack_of_is hx
  · obtain ⟨t, hv, rfl⟩ | ⟨t, n, f, hn, hv, hj⟩ := unpack_of_is hy
    · rw [hu, hv]
      cases s <;> cases t <;> exact is_pack (holds_zero _)
    · have hright : UnpackedFloat.add Format.binary64 x.toModel.unpack y.toModel.unpack =
        y.toModel.unpack := by rw [hu, hv]; rfl
      rw [hright, ofModel_pack_unpack, zero_add]
      exact hy
  · obtain ⟨t, hv, rfl⟩ | ⟨t, n, f, hn, hv, hj⟩ := unpack_of_is hy
    · have hleft : UnpackedFloat.add Format.binary64 x.toModel.unpack y.toModel.unpack =
        x.toModel.unpack := by rw [hu, hv]; rfl
      rw [hleft, ofModel_pack_unpack, add_zero]
      exact hx
    · rw [hu, hv]
      -- both are brought to the smaller exponent, where the mantissas add up
      apply is_pack
      apply holds_normalize _ (exact_of_le hmax)
      have hleft := rational_shift s m (min_le_left e f)
      have hright := rational_shift t n (min_le_right e f)
      rw [Int.cast_add, Int.cast_add, add_mul]
      exact congrArg₂ (· + ·) (hleft.trans hi) (hright.trans hj)

theorem rational_neg_sign (s : Sign) (m : Nat) (e : Int) : rational (-s) m e = -rational s m e := by
  cases s with
  | negative => exact (rational_positive m e).trans (by rw [rational_negative]; ring)
  | positive => exact (rational_negative m e).trans (by rw [rational_positive])

/-- The opposite of an integer is exact. -/
theorem is_neg {x : Float} {i : Int} (hx : Is x i) : Is (-x) (-i) := by
  have hneg : -x = Float.ofModel (.pack x.toModel.unpack.neg) := rfl
  rw [hneg]
  apply is_pack
  obtain ⟨s, hu, rfl⟩ | ⟨s, m, e, hm, hu, hi⟩ := unpack_of_is hx
  · rw [hu, neg_zero]
    exact holds_zero (-s)
  · rw [hu]
    refine ⟨?_, unpack_pack (-s) (canonical_of_unpack hu)⟩
    have hvalue : rational (-s) m e = ((-i : Int) : ℚ) := by
      rw [rational_neg_sign, hi, Int.cast_neg]
    rw [← hvalue]
    rfl

theorem lt_iff_of_is {x y : Float} {i j : Int} (hx : Is x i) (hy : Is y j) : x < y ↔ i < j := by
  rw [lt_iff hx hy]
  simp

theorem le_iff_of_is {x y : Float} {i j : Int} (hx : Is x i) (hy : Is y j) : x ≤ y ↔ i ≤ j := by
  rw [le_iff hx hy]
  simp

theorem is_zero : Is 0 0 :=
  is_pack (holds_zero .positive)

end LineBasic.Number
