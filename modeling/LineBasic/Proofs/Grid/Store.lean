import LineBasic.Proofs.Expr.Typed
import LineBasic.Proofs.Grid.RowMajor
import LineBasic.Proofs.Machine.Action

/-!
# Reading and writing elements

An element holds what was last written to it, and otherwise what it holds at first. Writing one
element leaves the others, the sizes and the type alone. Reading and writing fail together outside
the range of the indexes, and writing also fails when the value has the wrong type, before the index
is looked at. Nothing is changed by a write that fails.

## Main definitions

* `Grid.RowMajor` — what an array is as a store of its elements

## Main results

* `Grid.set_eq_ok_iff` — when a write succeeds
* `Grid.get_put`, `Grid.get_put_of_ne` — what is read after a write
* `Grid.rowMajor` — every array is such a store
* `Machine.assign_element` — an assignment to an element is a write to its array
* `Machine.row_major_arrays` — which arrays are made, and what they are
-/

namespace LineBasic

namespace Grid

variable {g g' : Grid} {index other : List Int} {v : Value}

theorem get_of_inRange (h : InRange g.sizes index) :
    g.get index = .ok (g.cell (rank g.sizes index)) := by
  rw [get, place_of_inRange h]
  rfl

theorem get_of_not_inRange (h : ¬InRange g.sizes index) : g.get index = .error .badSubscript := by
  rw [get, place_of_not_inRange h]
  rfl

/-- The array with another value in one element. -/
def put (g : Grid) (index : List Int) (v : Value) : Grid :=
  { g with cells := g.cells.insert (rank g.sizes index) v }

theorem set_of_inRange (hv : v.isString = g.strings) (h : InRange g.sizes index) :
    g.set index v = .ok (g.put index v) := by
  rw [set, if_neg (by simp [hv]), place_of_inRange h]
  rfl

theorem set_of_not_inRange (hv : v.isString = g.strings) (h : ¬InRange g.sizes index) :
    g.set index v = .error .badSubscript := by
  rw [set, if_neg (by simp [hv]), place_of_not_inRange h]
  rfl

theorem set_of_isString_ne (hv : v.isString ≠ g.strings) :
    g.set index v = .error .typeMismatch := by
  rw [set, if_pos (by simpa using hv)]

/-- A write succeeds when the value has the type of the array and the index is in range. -/
theorem set_eq_ok_iff :
    g.set index v = .ok g' ↔
      v.isString = g.strings ∧ InRange g.sizes index ∧ g.put index v = g' := by
  by_cases hv : v.isString = g.strings
  · by_cases h : InRange g.sizes index
    · simp [set_of_inRange hv h, hv, h]
    · simp [set_of_not_inRange hv h, h]
  · simp [set_of_isString_ne hv, hv]

@[simp]
theorem sizes_put : (g.put index v).sizes = g.sizes := rfl

@[simp]
theorem strings_put : (g.put index v).strings = g.strings := rfl

theorem cell_put (place : Nat) :
    (g.put index v).cell place = if rank g.sizes index = place then v else g.cell place := by
  rw [put, cell, cell, Std.ExtTreeMap.getElem?_insert]
  simp only [Std.LawfulEqCmp.compare_eq_iff_eq]
  split <;> rfl

/-- An element holds what was written to it. -/
theorem get_put (h : InRange g.sizes index) : (g.put index v).get index = .ok v := by
  have hget := get_of_inRange (g := g.put index v) h
  rwa [cell_put, sizes_put, if_pos rfl] at hget

/-- The other elements hold what they held, since they have other places. -/
theorem get_put_of_ne (h : InRange g.sizes index) (hne : other ≠ index) :
    (g.put index v).get other = g.get other := by
  by_cases hother : InRange g.sizes other
  · have hrank : rank g.sizes index ≠ rank g.sizes other :=
      fun heq => hne ((rank_strictMonoOn g.sizes).injOn hother h heq.symm)
    have hget := get_of_inRange (g := g.put index v) hother
    rwa [cell_put, sizes_put, if_neg hrank, ← get_of_inRange hother] at hget
  · rw [get_of_not_inRange hother, get_of_not_inRange (g := g.put index v) hother]

/-- An array that is made holds what its type holds at first. -/
theorem get_of_make {strings : Bool} {sizes : List Int} {bound : Int}
    (hg : make strings sizes bound = .ok g) (h : InRange g.sizes index) :
    g.get index = .ok (if strings then .str [] else .num 0) := by
  obtain ⟨-, -, rfl⟩ := make_eq_ok_iff.mp hg
  rw [get_of_inRange h, cell]
  simp [initial]

/-- What an array is as a store of its elements. -/
structure RowMajor (g : Grid) : Prop where
  /-- An index in range has a place, and no other index has one. -/
  place : ∀ index place, g.place index = .ok place ↔
    InRange g.sizes index ∧ rank g.sizes index = place
  outside : ∀ index c, g.place index = .error c ↔ ¬InRange g.sizes index ∧ c = .badSubscript
  /-- The places are used up. -/
  bijective : Set.BijOn (rank g.sizes) {index | InRange g.sizes index} (Set.Iio g.sizes.prod)
  /-- The places are in the order of the indexes, where the last subscript varies fastest. -/
  ordered : StrictMonoOn (rank g.sizes) {index | InRange g.sizes index}
  reads : ∀ index, (∃ v, g.get index = .ok v) ↔ InRange g.sizes index
  writes : ∀ index v, (∃ g', g.set index v = .ok g') ↔
    v.isString = g.strings ∧ InRange g.sizes index
  /-- A write changes one element. -/
  written : ∀ index v g', g.set index v = .ok g' →
    g'.sizes = g.sizes ∧ g'.strings = g.strings ∧ g'.get index = .ok v ∧
      ∀ other, other ≠ index → g'.get other = g.get other

theorem rowMajor (g : Grid) : g.RowMajor where
  place index place := by
    by_cases h : InRange g.sizes index
    · simp [place_of_inRange h, h]
    · simp [place_of_not_inRange h, h]
  outside index c := by
    by_cases h : InRange g.sizes index
    · simp [place_of_inRange h, h]
    · simp [place_of_not_inRange h, h, eq_comm]
  bijective := rank_bijOn g.sizes
  ordered := rank_strictMonoOn g.sizes
  reads index := by
    by_cases h : InRange g.sizes index
    · simp [get_of_inRange h, h]
    · simp [get_of_not_inRange h, h]
  writes index v := by simp [set_eq_ok_iff]
  written index v g' h := by
    obtain ⟨-, hindex, rfl⟩ := set_eq_ok_iff.mp h
    exact ⟨rfl, rfl, get_put hindex, fun other hne => get_put_of_ne hindex hne⟩

end Grid

/-! ### Elements of the arrays of a machine -/

namespace Machine

variable {m m' : Machine} {g : Grid} {name : Name} {index : List Int} {v : Value} {c : Cause}

theorem arrayFor_some (hg : m.arrays[name]? = some g) (axes : Nat) :
    arrayFor name axes m = .ok g m := by
  rw [arrayFor, get_bind_apply]
  simp only [hg]
  rfl

theorem assign_of_not_fits {t : Target} (hv : v.fits t.name ≠ true) (m : Machine) :
    assign t v m = .error .typeMismatch m := by
  rw [assign.eq_def, bind_apply, checkFits, if_neg hv]
  rfl

theorem assign_scalar (hv : v.fits name = true) (m : Machine) :
    assign (.scalar name) v m = .ok () { m with scalars := m.scalars.insert name v } := by
  have hfits : checkFits (Target.scalar name).name v = pure () := if_pos hv
  rw [assign, hfits]
  rfl

/-- A value that fits is written to the array, which is made if it does not exist. -/
theorem assign_element (hv : v.fits name = true) (index : List Int) (m : Machine) :
    assign (.element name index) v m =
      match arrayFor name index.length m with
      | .ok g m₁ =>
        match g.set index v with
        | .ok g' => .ok () { m₁ with arrays := m₁.arrays.insert name g' }
        | .error c => .error c m₁
      | .error c m₁ => .error c m₁ := by
  have hfits : checkFits (Target.element name index).name v = pure () := if_pos hv
  rw [assign, hfits, bind_apply, pure_apply]
  dsimp only
  rw [bind_apply]
  cases arrayFor name index.length m with
  | ok g m₁ =>
    simp only [bind_apply, ofExcept]
    cases g.set index v <;> rfl
  | error c m₁ => rfl

/-- An assignment to an element of an array that exists is a write, and one that fails changes
nothing. -/
theorem eq_of_assign_element_error (hg : m.arrays[name]? = some g)
    (h : assign (.element name index) v m = .error c m') : m' = m := by
  by_cases hv : v.fits name = true
  · rw [assign_element hv, arrayFor_some hg] at h
    dsimp only at h
    split at h <;> cases h
    rfl
  · rw [assign_of_not_fits (t := .element name index) hv] at h
    cases h
    rfl

/-- Within a bound that leaves room for at least one element, an array is made exactly when all its
sizes are positive and their product is within the bound, and otherwise the first axis that does not
fit decides why not. No product on the way is beyond the bound, so machine words count the same. A
new array has the sizes it was made with, and holds what its type holds at first. Every array, new
or written to, stores its elements in row-major order, and a failed assignment to one of them
changes nothing in the machine. -/
theorem row_major_arrays {bound : Int} (hbound : 0 < bound) (strings : Bool) (sizes : List Int) :
    ((∃ g, Grid.make strings sizes bound = .ok g) ↔
        (∀ n ∈ sizes, 0 < n) ∧ sizes.prod ≤ bound) ∧
      (∀ c, Grid.make strings sizes bound = .error c ↔
        ∃ before n after, sizes = before ++ n :: after ∧ (∀ k ∈ before, 0 < k) ∧
          before.prod ≤ bound ∧ Grid.Offends bound before.prod n c) ∧
      (∀ before after total, sizes = before ++ after → Grid.count bound 1 before = .ok total →
        total = before.prod ∧ total ≤ bound ∧
          Grid.count bound 1 sizes = Grid.count bound total after) ∧
      (∀ (limit : Int64) (words : List Int64), limit.toInt = bound →
        words.map Int64.toInt = sizes →
          (Grid.countWords limit 1 words).map Int64.toInt = Grid.count bound 1 sizes) ∧
      (∀ g, Grid.make strings sizes bound = .ok g →
        g.sizes.map Nat.cast = sizes ∧ g.strings = strings ∧
          ∀ index, Grid.InRange g.sizes index →
            g.get index = .ok (if strings then .str [] else .num 0)) ∧
      ∀ g : Grid, g.RowMajor ∧
        ∀ (m m' : Machine) (name : Name) (index : List Int) (v : Value) (c : Cause),
          m.arrays[name]? = some g → assign (.element name index) v m = .error c m' →
            m' = m := by
  refine ⟨?_, fun c => ?_, ?_, ?_, ?_, fun g => ⟨g.rowMajor, ?_⟩⟩
  · simp [Grid.make_eq_ok_iff]
  · rw [Grid.make_eq_error_iff, Grid.count_eq_error_iff Int.one_pos hbound]
    constructor
    · rintro ⟨before, n, after, k, hsizes, hbefore, hoffends⟩
      obtain ⟨hpos, hroom, rfl⟩ := Grid.count_one_eq_ok_iff.mp hbefore
      exact ⟨before, n, after, hsizes, hpos, hroom, hoffends⟩
    · rintro ⟨before, n, after, hsizes, hpos, hroom, hoffends⟩
      exact ⟨before, n, after, _, hsizes, Grid.count_one_eq_ok_iff.mpr ⟨hpos, hroom, rfl⟩, hoffends⟩
  · rintro before after total rfl hbefore
    obtain ⟨-, hroom, hrest⟩ := Grid.count_append Int.one_pos hbefore after
    exact ⟨(Grid.count_one_eq_ok_iff.mp hbefore).2.2.symm, hroom, hrest⟩
  · rintro limit words rfl rfl
    exact Grid.map_countWords limit 1 words (by decide)
  · intro g hg
    obtain ⟨hpos, -, heq⟩ := Grid.make_eq_ok_iff.mp hg
    refine ⟨?_, ?_, fun index hindex => Grid.get_of_make hg hindex⟩
    · rw [← heq]
      exact Grid.map_cast_map_toNat hpos
    · rw [← heq]
  · exact fun m m' name index v c hg h => eq_of_assign_element_error hg h

/-- Twelve elements have room for three rows of four, where the last one is at place 11, but not for
three rows of five. -/
theorem row_major_arrays_twelve :
    (∃ g, Grid.make false [3, 4] 12 = .ok g ∧ g.place [2, 3] = .ok 11) ∧
      Grid.make false [3, 5, -1] 12 = .error .arrayTooLarge := by
  have hroom : (0 : Int) < 12 := by decide
  obtain ⟨hmake, -, -, -, hnew, hstore⟩ := row_major_arrays hroom false [3, 4]
  obtain ⟨-, hfails, -⟩ := row_major_arrays hroom false [3, 5, -1]
  obtain ⟨g, hg⟩ := hmake.mpr ⟨by decide, by decide⟩
  refine ⟨⟨g, hg, ?_⟩, (hfails _).mpr ⟨[3], 5, [-1], rfl, by decide, by decide, ?_⟩⟩
  · have hsizes : g.sizes = [3, 4] :=
      List.map_injective_iff.mpr Nat.cast_injective (hnew g hg).1
    rw [(hstore g).1.place, hsizes]
    exact ⟨by simp, rfl⟩
  · exact .inr ⟨by decide, by decide, rfl⟩

end Machine

end LineBasic
