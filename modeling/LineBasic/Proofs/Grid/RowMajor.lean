import LineBasic.Proofs.Grid.Count
import Mathlib.Data.List.Forall2
import Mathlib.Data.List.Lex
import Mathlib.Order.Interval.Set.Defs
import Mathlib.Order.Monotone.Basic
import Mathlib.Data.Set.Function

/-!
# Row-major order

The elements of an array are numbered in the order of their indexes, where the first subscripts that
differ decide. So the number of an element tells how many elements stand in front of it, every place
of the array has exactly one index, and an index has no place only when it has another number of
subscripts than the array has axes or one of them is out of range.

## Main definitions

* `Grid.InRange` — an index has a number in range for each axis
* `Grid.rank` — the number of the element with an index

## Main results

* `Grid.offsetFrom_eq_some_iff` — the place that is computed axis by axis is the rank
* `Grid.rank_strictMonoOn` — ranks are in the order of the indexes
* `Grid.rank_bijOn` — each place has exactly one index
* `Grid.place_of_inRange`, `Grid.place_of_not_inRange` — which indexes have a place
-/

namespace LineBasic.Grid

variable {n : Nat} {i : Int} {sizes : List Nat} {index : List Int}

/-- An index in an array has a number for each axis, from zero up to the size of the axis. -/
def InRange (sizes : List Nat) (index : List Int) : Prop :=
  List.Forall₂ (fun (n : Nat) (i : Int) => 0 ≤ i ∧ i < n) sizes index

@[simp]
theorem inRange_nil : InRange [] [] :=
  .nil

@[simp]
theorem inRange_cons : InRange (n :: sizes) (i :: index) ↔ (0 ≤ i ∧ i < n) ∧ InRange sizes index :=
  List.forall₂_cons

@[simp]
theorem not_inRange_nil_cons : ¬InRange [] (i :: index) :=
  nofun

@[simp]
theorem not_inRange_cons_nil : ¬InRange (n :: sizes) [] :=
  nofun

/-- The number of the element with an index in range. A step along an axis leaves out all elements
of the axes behind it. -/
def rank : (sizes : List Nat) → (index : List Int) → Nat
  | _ :: sizes, i :: index => i.toNat * sizes.prod + rank sizes index
  | _, _ => 0

/-- The place that is computed axis by axis is the rank, behind the rows in front. -/
theorem offsetFrom_eq_some_iff {before place : Nat} :
    offsetFrom before sizes index = some place ↔
      InRange sizes index ∧ before * sizes.prod + rank sizes index = place := by
  induction sizes generalizing before index with
  | nil =>
    cases index with
    | nil => simp [offsetFrom, rank]
    | cons i index => simp [offsetFrom]
  | cons n sizes ih =>
    cases index with
    | nil => simp [offsetFrom]
    | cons i index =>
      -- among the other axes, `before * n + i` rows are in front of the place
      have hrank : (before * n + i.toNat) * sizes.prod + rank sizes index =
          before * (n :: sizes).prod + rank (n :: sizes) (i :: index) := by
        rw [rank, List.prod_cons, Nat.add_mul, Nat.mul_assoc, Nat.add_assoc]
      rw [offsetFrom, inRange_cons, ← hrank]
      split
      · next hi =>
        simp only [Bool.and_eq_true, decide_eq_true_eq] at hi
        rw [ih, and_iff_right hi]
      · next hi =>
        simp only [Bool.and_eq_true, decide_eq_true_eq] at hi
        exact ⟨nofun, fun h => absurd h.1.1 hi⟩

/-! ### The order of the elements -/

/-- Less than a whole row behind `a` rows is still in front of the next row. -/
theorem mul_add_lt_mul {a b p r : Nat} (hab : a < b) (hr : r < p) : a * p + r < b * p :=
  calc a * p + r < a * p + p := Nat.add_lt_add_left hr _
    _ = (a + 1) * p := (Nat.succ_mul a p).symm
    _ ≤ b * p := Nat.mul_le_mul_right p hab

theorem rank_lt (h : InRange sizes index) : rank sizes index < sizes.prod := by
  induction h with
  | nil => exact Nat.zero_lt_one
  | cons hi _ ih =>
    rw [rank, List.prod_cons]
    exact mul_add_lt_mul (by omega) ih

/-- The elements are in the order of their indexes: the first subscripts that differ decide. -/
theorem rank_strictMonoOn (sizes : List Nat) :
    StrictMonoOn (rank sizes) {index | InRange sizes index} := by
  intro a ha b hb hlt
  induction ha generalizing b with
  | nil =>
    cases hb
    exact absurd hlt (lt_irrefl _)
  | @cons n i sizes a hi ha ih =>
    cases hb with
    | @cons _ j _ b hj hb =>
      rw [rank, rank]
      rcases List.cons_lt_cons_iff.mp hlt with hij | ⟨rfl, hrest⟩
      · exact Nat.lt_add_right _ (mul_add_lt_mul (by omega) (rank_lt ha))
      · exact Nat.add_lt_add_left (ih hb hrest) _

/-- Every place has an index: the rows in front give the first subscript, and what is left in the
row gives the others. -/
theorem rank_surjOn (sizes : List Nat) :
    Set.SurjOn (rank sizes) {index | InRange sizes index} (Set.Iio sizes.prod) := by
  induction sizes with
  | nil =>
    intro place hplace
    exact ⟨[], inRange_nil, (Nat.lt_one_iff.mp hplace).symm⟩
  | cons n sizes ih =>
    intro place hplace
    rw [Set.mem_Iio, List.prod_cons] at hplace
    have hrow : 0 < sizes.prod := Nat.pos_of_mul_pos_left (Nat.zero_lt_of_lt hplace)
    obtain ⟨index, hindex, hrank⟩ := ih (Set.mem_Iio.mpr (Nat.mod_lt place hrow))
    have hfirst : place / sizes.prod < n := (Nat.div_lt_iff_lt_mul hrow).mpr hplace
    refine ⟨(place / sizes.prod : Nat) :: index, inRange_cons.mpr ⟨⟨?_, ?_⟩, hindex⟩, ?_⟩
    · exact Int.natCast_nonneg _
    · exact Int.ofNat_lt.mpr hfirst
    · rw [rank, hrank, Int.toNat_natCast]
      exact Nat.div_add_mod' place sizes.prod

/-- Each place of an array has exactly one index. -/
theorem rank_bijOn (sizes : List Nat) :
    Set.BijOn (rank sizes) {index | InRange sizes index} (Set.Iio sizes.prod) :=
  ⟨fun _ h => rank_lt h, (rank_strictMonoOn sizes).injOn, rank_surjOn sizes⟩

/-! ### Places -/

theorem offset?_eq_some_iff {g : Grid} {place : Nat} :
    g.offset? index = some place ↔ InRange g.sizes index ∧ rank g.sizes index = place := by
  rw [offset?, offsetFrom_eq_some_iff, Nat.zero_mul, Nat.zero_add]

theorem place_of_inRange {g : Grid} (h : InRange g.sizes index) :
    g.place index = .ok (rank g.sizes index) := by
  have hroom : rank g.sizes index < g.size := g.size_eq_prod ▸ rank_lt h
  rw [place, offset?_eq_some_iff.mpr ⟨h, rfl⟩]
  exact if_pos hroom

theorem place_of_not_inRange {g : Grid} (h : ¬InRange g.sizes index) :
    g.place index = .error .badSubscript := by
  have hnone : g.offset? index = none :=
    Option.eq_none_iff_forall_ne_some.mpr fun _ hplace => h (offset?_eq_some_iff.mp hplace).1
  rw [place, hnone]

end LineBasic.Grid
