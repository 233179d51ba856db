import LineBasic.Grid
import Mathlib.Algebra.BigOperators.Ring.Finset
import Mathlib.Algebra.Order.BigOperators.GroupWithZero.List
import Mathlib.Algebra.Order.Ring.Int

/-!
# The room of an array

The sizes of an array are multiplied one after the other. Before each multiplication the bound is
divided by the next size and compared with the product so far, so a product beyond the bound is
never computed. What stops the count is the first axis that does not fit. Machine words, which wrap
around, give the same count.

## Main definitions

* `Grid.Offends` — an axis does not fit behind a product
* `Grid.countWords` — the count with machine words

## Main results

* `Grid.count_eq_ok_iff` — which sizes there is room for
* `Grid.count_append` — the product of the first sizes is within the bound
* `Grid.count_eq_error_iff` — the first axis that does not fit
* `Grid.map_countWords` — machine words do not overflow
* `Grid.count_of_make` — an array has the elements that it was made with
-/

namespace LineBasic.Grid

variable {bound total k n : Int} {sizes before : List Int} {c : Cause}

/-! ### One axis -/

/-- The guard compares quotients, but it is about the product. -/
theorem tdiv_lt_iff (htotal : 0 < total) (hn : 0 < n) :
    bound.tdiv n < total ↔ bound < total * n := by
  rcases Int.le_total 0 bound with hbound | hbound
  · rw [Int.tdiv_eq_ediv_of_nonneg hbound, Int.ediv_lt_iff_lt_mul hn]
  · have hquotient : 0 ≤ (-bound).tdiv n := Int.tdiv_nonneg (Int.neg_nonneg_of_nonpos hbound) hn.le
    have hproduct : 0 < total * n := Int.mul_pos htotal hn
    rw [Int.neg_tdiv] at hquotient
    constructor <;> intro _ <;> omega

theorem count_cons_of_nonpos (hn : n ≤ 0) :
    count bound total (n :: sizes) = .error .illegalQuantity := by
  rw [count, if_pos hn]

theorem count_cons_of_pos (htotal : 0 < total) (hn : 0 < n) :
    count bound total (n :: sizes) =
      if bound < total * n then .error .arrayTooLarge else count bound (total * n) sizes := by
  rw [count, if_neg (Int.not_le.mpr hn)]
  simp only [tdiv_lt_iff htotal hn]

/-- An axis of size `n` does not fit behind axes with `total` elements. -/
def Offends (bound total n : Int) (c : Cause) : Prop :=
  (n ≤ 0 ∧ c = .illegalQuantity) ∨ (0 < n ∧ bound < total * n ∧ c = .arrayTooLarge)

/-- The count goes on exactly when the next axis fits. -/
theorem count_cons_cases (htotal : 0 < total) (n : Int) (sizes : List Int) :
    (∃ c, Offends bound total n c ∧ count bound total (n :: sizes) = .error c) ∨
      (0 < n ∧ total * n ≤ bound ∧
        count bound total (n :: sizes) = count bound (total * n) sizes) := by
  rcases Int.lt_or_le 0 n with hn | hn
  · rw [count_cons_of_pos htotal hn]
    by_cases hroom : bound < total * n
    · exact .inl ⟨_, .inr ⟨hn, hroom, rfl⟩, if_pos hroom⟩
    · exact .inr ⟨hn, Int.not_lt.mp hroom, if_neg hroom⟩
  · exact .inl ⟨_, .inl ⟨hn, rfl⟩, count_cons_of_nonpos hn⟩

/-! ### All axes -/

/-- There is room for an array when no size is zero or less and the product is within the bound. -/
theorem count_eq_ok_iff (htotal : 0 < total) :
    count bound total sizes = .ok k ↔
      (∀ n ∈ sizes, 0 < n) ∧ total * sizes.prod ≤ bound ∧ total * sizes.prod = k := by
  induction sizes generalizing total with
  | nil =>
    rw [count, List.prod_nil, Int.mul_one]
    by_cases hroom : bound < total
    · simp [hroom]
    · simp [hroom, Int.not_lt.mp hroom]
  | cons n sizes ih =>
    rw [List.forall_mem_cons, List.prod_cons, ← Int.mul_assoc]
    rcases count_cons_cases htotal n sizes with ⟨c, hoffends, hc⟩ | ⟨hn, _, hc⟩
    · rw [hc]
      refine ⟨nofun, fun ⟨⟨hn, hpos⟩, hle, _⟩ => ?_⟩
      rcases hoffends with ⟨hnonpos, -⟩ | ⟨-, hroom, -⟩
      · omega
      · -- the remaining sizes cannot bring the product back under the bound
        have hone : 1 ≤ sizes.prod := List.one_le_prod hpos
        have hgrow := Int.mul_le_mul_of_nonneg_left hone (Int.mul_pos htotal hn).le
        omega
    · rw [hc, ih (Int.mul_pos htotal hn), and_iff_right hn]

theorem count_one_eq_ok_iff :
    count bound 1 sizes = .ok k ↔
      (∀ n ∈ sizes, 0 < n) ∧ sizes.prod ≤ bound ∧ sizes.prod = k := by
  rw [count_eq_ok_iff Int.one_pos, Int.one_mul]

/-- The product of the first sizes is within the bound, and the count goes on from there. -/
theorem count_append (htotal : 0 < total) (h : count bound total before = .ok k)
    (after : List Int) :
    0 < k ∧ k ≤ bound ∧ count bound total (before ++ after) = count bound k after := by
  induction before generalizing total with
  | nil =>
    obtain ⟨-, hle, hk⟩ := (count_eq_ok_iff htotal).mp h
    rw [List.prod_nil, Int.mul_one] at hle hk
    subst hk
    exact ⟨htotal, hle, rfl⟩
  | cons n before ih =>
    rcases count_cons_cases htotal n before with ⟨c, -, hc⟩ | ⟨hn, hroom, hc⟩
    · rw [hc] at h
      cases h
    · rw [hc] at h
      have hrest := ih (Int.mul_pos htotal hn) h
      rwa [List.cons_append, count_cons_of_pos htotal hn, if_neg (Int.not_lt.mpr hroom)]

/-- The count fails at the first axis that does not fit, for the reason why it does not. -/
theorem count_eq_error_iff (htotal : 0 < total) (hroom : total ≤ bound) :
    count bound total sizes = .error c ↔
      ∃ before n after k, sizes = before ++ n :: after ∧ count bound total before = .ok k ∧
        Offends bound k n c := by
  constructor
  · intro h
    induction sizes generalizing total with
    | nil =>
      rw [count, if_neg (Int.not_lt.mpr hroom)] at h
      cases h
    | cons n sizes ih =>
      rcases count_cons_cases htotal n sizes with
        ⟨c', hoffends, hc⟩ | ⟨hn, hnext, hc⟩
      · rw [hc] at h
        cases h
        refine ⟨[], n, sizes, total, rfl, ?_, hoffends⟩
        rw [count, if_neg (Int.not_lt.mpr hroom)]
      · rw [hc] at h
        obtain ⟨before, n', after, k, rfl, hbefore, hoffends⟩ :=
          ih (Int.mul_pos htotal hn) hnext h
        refine ⟨n :: before, n', after, k, rfl, ?_, hoffends⟩
        rw [count_cons_of_pos htotal hn, if_neg (Int.not_lt.mpr hnext), hbefore]
  · rintro ⟨before, n, after, k, rfl, hbefore, hoffends⟩
    obtain ⟨hk, -, hcount⟩ := count_append htotal hbefore (n :: after)
    rw [hcount]
    rcases hoffends with ⟨hn, rfl⟩ | ⟨hn, hlt, rfl⟩
    · exact count_cons_of_nonpos hn
    · rw [count_cons_of_pos hk hn, if_pos hlt]

/-! ### Machine words -/

/-- The count with words of 64 bits, whose products wrap around. -/
def countWords (bound : Int64) : (total : Int64) → List Int64 → Except Cause Int64
  | total, [] => if bound < total then .error .arrayTooLarge else .ok total
  | total, n :: sizes =>
    if n ≤ 0 then .error .illegalQuantity
    else if bound / n < total then .error .arrayTooLarge
    else countWords bound (total * n) sizes

theorem toInt_div_of_pos {n : Int64} (hn : 0 < n.toInt) (a : Int64) :
    (a / n).toInt = a.toInt.tdiv n.toInt := by
  refine Int64.toInt_div_of_ne_right a n ?_
  rintro rfl
  exact absurd hn (by decide)

/-- A product that is within the bound fits into a word. -/
theorem toInt_mul_of_le {bound total n : Int64} (htotal : 0 < total.toInt) (hn : 0 < n.toInt)
    (hroom : total.toInt * n.toInt ≤ bound.toInt) : (total * n).toInt = total.toInt * n.toInt := by
  have hpos : 0 < total.toInt * n.toInt := Int.mul_pos htotal hn
  have hword := bound.toInt_lt
  rw [Int64.toInt_mul]
  exact Int.bmod_eq_of_le (by omega) (by omega)

/-- The products that are computed never overflow, so machine words give the same count. -/
theorem map_countWords (bound total : Int64) (sizes : List Int64) (htotal : 0 < total.toInt) :
    (countWords bound total sizes).map Int64.toInt =
      count bound.toInt total.toInt (sizes.map Int64.toInt) := by
  induction sizes generalizing total with
  | nil =>
    rw [countWords, List.map_nil, count]
    simp only [Int64.lt_iff_toInt_lt]
    split <;> rfl
  | cons n sizes ih =>
    rw [countWords, List.map_cons]
    simp only [Int64.le_iff_toInt_le, Int64.lt_iff_toInt_lt, Int64.toInt_zero]
    rcases Int.lt_or_le 0 n.toInt with hn | hn
    · rw [count_cons_of_pos htotal hn, if_neg (Int.not_le.mpr hn), toInt_div_of_pos hn]
      simp only [tdiv_lt_iff htotal hn]
      split
      · rfl
      · next hroom =>
        have hproduct := toInt_mul_of_le htotal hn (Int.not_lt.mp hroom)
        rw [ih (total * n) (hproduct ▸ Int.mul_pos htotal hn), hproduct]
    · rw [count_cons_of_nonpos hn, if_pos hn]
      rfl

/-! ### The array -/

theorem size_eq_prod (g : Grid) : g.size = g.sizes.prod :=
  List.prod_eq_foldl.symm

theorem map_cast_map_toNat (h : ∀ n ∈ sizes, 0 < n) :
    (sizes.map Int.toNat).map Nat.cast = sizes := by
  rw [List.map_map]
  exact (List.map_congr_left fun n hn => Int.toNat_of_nonneg (h n hn).le).trans (List.map_id _)

/-- An array is made when there is room for it. -/
theorem make_eq_ok_iff {strings : Bool} {g : Grid} :
    make strings sizes bound = .ok g ↔
      (∀ n ∈ sizes, 0 < n) ∧ sizes.prod ≤ bound ∧ ⟨sizes.map Int.toNat, strings, ∅⟩ = g := by
  rw [make]
  constructor
  · intro h
    cases hok : count bound 1 sizes with
    | ok k =>
      rw [hok] at h
      obtain ⟨hpos, hroom, -⟩ := count_one_eq_ok_iff.mp hok
      exact ⟨hpos, hroom, Except.ok.inj h⟩
    | error c =>
      rw [hok] at h
      cases h
  · rintro ⟨hpos, hroom, rfl⟩
    rw [count_one_eq_ok_iff.mpr ⟨hpos, hroom, rfl⟩]
    rfl

/-- An array is not made for the reason that stops the count. -/
theorem make_eq_error_iff {strings : Bool} :
    make strings sizes bound = .error c ↔ count bound 1 sizes = .error c := by
  rw [make]
  cases count bound 1 sizes with
  | ok k => exact ⟨nofun, nofun⟩
  | error d => rw [Except.map, Except.error.injEq, Except.error.injEq]

/-- An array has as many elements as were counted when it was made. -/
theorem count_of_make {strings : Bool} {g : Grid} (h : make strings sizes bound = .ok g) :
    count bound 1 sizes = .ok (g.size : Int) := by
  obtain ⟨hpos, hroom, rfl⟩ := make_eq_ok_iff.mp h
  rw [count_one_eq_ok_iff, size_eq_prod, Nat.cast_list_prod, map_cast_map_toNat hpos]
  exact ⟨hpos, hroom, rfl⟩

end LineBasic.Grid
