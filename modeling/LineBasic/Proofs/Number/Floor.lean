import LineBasic.Proofs.Number.Value
import Mathlib.Data.Rat.Floor

/-!
# Laws of integer parts

The integer part of a number is found by shifting its mantissa. It is the floor of the value that
the number stands for, and some number stands for it: a number of 53 bits and more has no fraction,
and the floor of a smaller one has at most 53 bits. Rounding down is therefore exact, and nothing
that compares a number with an integer from below can tell the number from its floor.

## Main results

* `Number.floor?_eq_some_iff` — the integer part is the floor of the value
* `Number.is_floor` — rounding down is exact
* `Number.floor?_floor`, `Number.floor_lt_iff` — what a number has in common with its floor
-/

namespace LineBasic.Number

open Float.Model Float.Model.UnpackedFloat

theorem floor_rational (s : Sign) (m : Nat) (e : Int) :
    ⌊rational s m e⌋ =
      if 0 ≤ e then (s.apply m : Int) * Nat.pow 2 e.toNat
      else (s.apply m : Int).fdiv (Nat.pow 2 (-e).toNat) := by
  split
  · next he =>
    obtain ⟨k, rfl⟩ := Int.eq_ofNat_of_zero_le he
    have hvalue : rational s m k = ((s.apply (m : Int) * 2 ^ k : Int) : ℚ) := by
      rw [rational, zpow_natCast]
      push_cast
      rfl
    rw [hvalue, Int.floor_intCast]
    simp
  · next he =>
    obtain ⟨k, hk⟩ := Int.eq_ofNat_of_zero_le (show 0 ≤ -e by omega)
    obtain rfl : e = -k := by omega
    have hvalue : rational s m (-k) = (s.apply (m : Int) : ℚ) / ((2 ^ k : Nat) : ℚ) := by
      rw [rational, zpow_neg, zpow_natCast, div_eq_mul_inv, Nat.cast_pow, Nat.cast_ofNat]
    rw [hvalue, Rat.floor_intCast_div_natCast, hk]
    exact (Int.fdiv_eq_ediv_of_nonneg _ (Int.natCast_nonneg _)).symm

/-- The integer part of a number is the floor of its value. -/
theorem floor?_of_value? {x : Float} {q : ℚ} (h : value? x = some ((q : WithTop ℚ) : Extended)) :
    floor? x = some ⌊q⌋ := by
  rw [floor?]
  obtain ⟨s, hu, rfl⟩ | ⟨s, m, e, hm, hu, rfl⟩ := unpack_of_value? h
  · rw [hu, Int.floor_zero]
  · rw [hu, floor_rational]

theorem floor?_eq_some_iff {x : Float} {i : Int} :
    floor? x = some i ↔ ∃ q : ℚ, value? x = some ((q : WithTop ℚ) : Extended) ∧ ⌊q⌋ = i := by
  constructor
  · intro h
    obtain ⟨q, hq⟩ : ∃ q : ℚ, value? x = some ((q : WithTop ℚ) : Extended) := by
      rw [floor?] at h
      rw [value?]
      cases hu : x.toModel.unpack with
      | notANumber => cases hu ▸ h
      | infinity s => cases hu ▸ h
      | zero s => exact ⟨0, rfl⟩
      | finite s m e hm => exact ⟨rational s m e, rfl⟩
    rw [floor?_of_value? hq, Option.some.injEq] at h
    exact ⟨q, hq, h⟩
  · rintro ⟨q, hq, rfl⟩
    exact floor?_of_value? hq

theorem floor?_of_is {x : Float} {i : Int} (h : Is x i) : floor? x = some i := by
  rw [floor?_of_value? h, Int.floor_intCast]

/-- The numbers without an integer part are the infinities and NaN. -/
theorem value?_of_floor?_eq_none {x : Float} (h : floor? x = none) :
    value? x = none ∨ value? x = some ⊤ ∨ value? x = some ⊥ := by
  rcases hvalue : value? x with _ | _ | _ | q
  · exact .inl rfl
  · exact .inr (.inr rfl)
  · exact .inr (.inl rfl)
  · cases h ▸ floor?_of_value? hvalue

theorem isNaN_of_floor? {x : Float} {i : Int} (h : floor? x = some i) : x.isNaN = false := by
  obtain ⟨q, hq, -⟩ := floor?_eq_some_iff.mp h
  exact isNaN_eq_false hq

/-! ### Rounding down -/

/-- The floor of a number is not rounded: if it has no fraction it is the number itself, and else it
has at most 53 bits. -/
theorem exact_floor (s : Sign) {m : Nat} {e : Int} (hc : Canonical m e) :
    Exact ⌊rational s m e⌋.natAbs := by
  rcases le_or_gt 0 e with he | he
  · obtain ⟨k, rfl⟩ := Int.eq_ofNat_of_zero_le he
    have habs : ⌊rational s m k⌋.natAbs = m * 2 ^ k := by
      rw [floor_rational, if_pos he, Int.natAbs_mul]
      cases s <;> simp [Sign.apply]
    rw [habs]
    refine .inr ⟨m, k, hc, ?_⟩
    rw [zpow_natCast, Nat.cast_mul, Nat.cast_pow, Nat.cast_ofNat]
  -- the unit is a fraction, so the floor is not beyond the mantissa
  · have hbits := hc.bits
    have hpow : (0 : ℚ) ≤ 2 ^ e := by positivity
    have hone : (2 : ℚ) ^ e ≤ 1 := zpow_le_one_of_nonpos₀ (by norm_num) he.le
    have hle : (m : ℚ) * 2 ^ e ≤ m := mul_le_of_le_one_right (Nat.cast_nonneg m) hone
    have hnonneg : (0 : ℚ) ≤ m * 2 ^ e := mul_nonneg (Nat.cast_nonneg m) hpow
    apply exact_of_le
    cases s with
    | negative =>
      have hlow : -(m : Int) ≤ ⌊rational .negative m e⌋ := by
        rw [Int.le_floor, rational_negative]
        push_cast
        linarith
      have hhigh : ⌊rational .negative m e⌋ ≤ 0 := by
        rw [← Int.lt_add_one_iff, Int.floor_lt, rational_negative]
        push_cast
        linarith
      omega
    | positive =>
      have hlow : 0 ≤ ⌊rational .positive m e⌋ := by
        rw [Int.floor_nonneg, rational_positive]
        exact hnonneg
      have hhigh : ⌊rational .positive m e⌋ ≤ m := by
        rw [← Int.lt_add_one_iff, Int.floor_lt, rational_positive]
        push_cast
        linarith
      omega

/-- Rounding down is exact. -/
theorem is_floor {x : Float} {q : ℚ} (h : value? x = some ((q : WithTop ℚ) : Extended)) :
    Is (floor x) ⌊q⌋ := by
  obtain ⟨s, hu, rfl⟩ | ⟨s, m, e, hm, hu, rfl⟩ := unpack_of_value? h
  · have hself : floor x = x := by rw [floor, hu]
    rw [hself, Int.floor_zero, Is, h, Int.cast_zero]
    rfl
  · have hround : floor x = ofInt ⌊rational s m e⌋ := by
      rw [floor, hu, floor?_of_value? h, Option.map_some, Option.getD_some]
    rw [hround]
    exact is_ofInt_of_exact (exact_floor s (canonical_of_unpack hu))

theorem floor_of_floor?_eq_none {x : Float} (h : floor? x = none) : floor x = x := by
  rw [floor]
  split
  · rw [h]
    rfl
  · rfl

@[simp] theorem floor?_floor (x : Float) : floor? (floor x) = floor? x := by
  cases h : floor? x with
  | none => rw [floor_of_floor?_eq_none h, h]
  | some i =>
    obtain ⟨q, hq, rfl⟩ := floor?_eq_some_iff.mp h
    exact floor?_of_is (is_floor hq)

/-- A number is below an integer if its floor is. -/
theorem floor_lt_iff {x y : Float} {j : Int} (hy : Is y j) : floor x < y ↔ x < y := by
  cases h : floor? x with
  | none => rw [floor_of_floor?_eq_none h]
  | some i =>
    obtain ⟨q, hq, rfl⟩ := floor?_eq_some_iff.mp h
    rw [lt_iff_of_is (is_floor hq) hy, lt_iff hq hy, Int.floor_lt]
    simp

theorem floor?_lt_iff {x y : Float} {i j : Int} (hx : floor? x = some i) (hy : Is y j) :
    i < j ↔ x < y := by
  obtain ⟨q, hq, rfl⟩ := floor?_eq_some_iff.mp hx
  rw [lt_iff hq hy, Int.floor_lt]
  simp

@[simp] theorem isNaN_floor (x : Float) : (floor x).isNaN = x.isNaN := by
  cases h : floor? x with
  | none => rw [floor_of_floor?_eq_none h]
  | some i =>
    obtain ⟨q, hq, rfl⟩ := floor?_eq_some_iff.mp h
    rw [Bool.eq_iff_iff, isNaN_iff, isNaN_iff, hq]
    have hfloor : value? (floor x) = _ := is_floor hq
    rw [hfloor]
    simp

theorem is_one : Is 1 1 := by
  rw [Is, value?, unpack_one, valueOf?_finite, rational_positive]
  norm_num

end LineBasic.Number
