import LineBasic.Proofs.Grid.Store
import LineBasic.Proofs.Machine.Balance

/-!
# An assignment changes one slot

Scalars and arrays, of numbers and of strings, live side by side under the same names, and an array
comes into being when one of its elements is first used. What a target holds before that is the same
as right after the array was made, so an assignment is seen at its own target and nowhere else, and
an assignment that fails is not seen at all. An array that is there keeps its sizes, and everything
that is not a variable stays as it was.

## Main definitions

* `Machine.seen` — what a target holds
* `Machine.ApartFrom` — what an assignment to a target leaves alone

## Main results

* `Machine.arrayFor_cases` — an array is found, made or refused
* `Machine.seen_insert_first` — nothing is seen of an array that was made
* `Machine.assign_one_slot` — what an assignment leaves behind
-/

namespace LineBasic.Machine

variable {m m' m'' : Machine} {name : Name} {g : Grid} {axes : Nat}

/-! ### What a target holds -/

/-- What a target holds. An array that does not exist holds what its name holds at first,
everywhere, and so does an array outside its range, where nothing can be stored. -/
def seen (m : Machine) : Target → Value
  | .scalar name => m.global name
  | .element name index =>
    match m.arrays[name]? with
    | some g => (g.get index).toOption.getD (.initial name)
    | none => .initial name

theorem seen_element_some (h : m.arrays[name]? = some g) (index : List Int) :
    m.seen (.element name index) = (g.get index).toOption.getD (.initial name) := by
  rw [seen, h]

theorem seen_element_none (h : m.arrays[name]? = none) (index : List Int) :
    m.seen (.element name index) = .initial name := by
  rw [seen, h]

/-- Storing a scalar is seen at its name only. -/
theorem seen_insert_scalar (m : Machine) (name : Name) (v : Value) :
    { m with scalars := m.scalars.insert name v }.seen =
      Function.update m.seen (.scalar name) v := by
  funext t
  cases t with
  | scalar other =>
    rw [seen, global, Std.ExtTreeMap.getElem?_insert]
    simp only [Std.LawfulEqCmp.compare_eq_iff_eq]
    by_cases heq : name = other
    · rw [if_pos heq, ← heq, Function.update_self]
      rfl
    · rw [if_neg heq, Function.update_of_ne (by simpa using Ne.symm heq)]
      rfl
  | element other index =>
    rw [Function.update_of_ne Target.noConfusion]
    rfl

theorem arrays_insert_self (m : Machine) (name : Name) (g : Grid) :
    { m with arrays := m.arrays.insert name g }.arrays[name]? = some g :=
  Std.ExtTreeMap.getElem?_insert_self

theorem arrays_insert_of_ne {other : Name} (h : name ≠ other) (m : Machine) (g : Grid) :
    { m with arrays := m.arrays.insert name g }.arrays[other]? = m.arrays[other]? := by
  rw [Std.ExtTreeMap.getElem?_insert, if_neg (by simpa using h)]

/-- Replacing an array is seen under its name only. -/
theorem seen_insert_array_of_ne {t : Target} (h : ∀ index, t ≠ .element name index) (m : Machine)
    (g : Grid) : { m with arrays := m.arrays.insert name g }.seen t = m.seen t := by
  cases t with
  | scalar other => rfl
  | element other index =>
    have hne : name ≠ other := fun heq => h index (heq ▸ rfl)
    rw [seen, seen, arrays_insert_of_ne hne]

/-! ### Arrays at their first use -/

/-- An array is found, or it is made, or it is refused. -/
theorem arrayFor_cases (name : Name) (axes : Nat) (m : Machine) :
    (∃ g, m.arrays[name]? = some g ∧ arrayFor name axes m = .ok g m) ∨
      (∃ g, m.arrays[name]? = none ∧ m.firstArray name axes = .ok g ∧
        arrayFor name axes m = .ok g { m with arrays := m.arrays.insert name g }) ∨
      ∃ c, arrayFor name axes m = .error c m := by
  cases harray : m.arrays[name]? with
  | some g => exact .inl ⟨g, rfl, arrayFor_some harray axes⟩
  | none =>
    have hmake := arrayFor_none harray axes
    cases hfirst : m.firstArray name axes with
    | ok g =>
      rw [hfirst] at hmake
      exact .inr (.inl ⟨g, rfl, rfl, hmake⟩)
    | error c =>
      rw [hfirst] at hmake
      exact .inr (.inr ⟨c, hmake⟩)

/-- An array that was just made holds everywhere what it held before. -/
theorem seen_insert_first (hnone : m.arrays[name]? = none) (hg : m.firstArray name axes = .ok g) :
    { m with arrays := m.arrays.insert name g }.seen = m.seen := by
  funext t
  by_cases ht : ∃ index, t = .element name index
  · obtain ⟨index, rfl⟩ := ht
    rw [seen_element_some (arrays_insert_self m name g), seen_element_none hnone]
    by_cases hindex : Grid.InRange g.sizes index
    · rw [Grid.get_of_make hg hindex]
      rfl
    · rw [Grid.get_of_not_inRange hindex]
      rfl
  · exact seen_insert_array_of_ne (fun index heq => ht ⟨index, heq⟩) m g

/-- Writing an element is seen at this element only. -/
theorem seen_insert_put (hg : m.arrays[name]? = some g) {index : List Int}
    (hindex : Grid.InRange g.sizes index) (v : Value) :
    { m with arrays := m.arrays.insert name (g.put index v) }.seen =
      Function.update m.seen (.element name index) v := by
  funext t
  by_cases ht : ∃ other, t = .element name other
  · obtain ⟨other, rfl⟩ := ht
    rw [seen_element_some (arrays_insert_self m name _)]
    by_cases hother : other = index
    · rw [hother, Function.update_self, Grid.get_put hindex]
      rfl
    · rw [Function.update_of_ne (by simpa using hother), Grid.get_put_of_ne hindex hother,
        seen_element_some hg]
  · rw [seen_insert_array_of_ne (fun other heq => ht ⟨other, heq⟩) m,
      Function.update_of_ne fun heq => ht ⟨index, heq⟩]

/-! ### Everything else -/

/-- What `m'` has in common with `m` when only the target `t` was worked at: all that is no
variable, all other scalars, all other arrays, and the sizes and the type of the array of `t`. -/
structure ApartFrom (t : Target) (m m' : Machine) : Prop where
  same : m' = { m with scalars := m'.scalars, arrays := m'.arrays }
  scalars : ∀ name, t ≠ .scalar name → m'.scalars[name]? = m.scalars[name]?
  arrays : ∀ name, (∀ index, t ≠ .element name index) → m'.arrays[name]? = m.arrays[name]?
  kept : ∀ (name : Name) (g : Grid), m.arrays[name]? = some g →
    ∃ g', m'.arrays[name]? = some g' ∧ g'.sizes = g.sizes ∧ g'.strings = g.strings

namespace ApartFrom

variable {t : Target}

theorem refl (t : Target) (m : Machine) : ApartFrom t m m :=
  ⟨rfl, fun _ _ => rfl, fun _ _ => rfl, fun _ g hg => ⟨g, hg, rfl, rfl⟩⟩

theorem trans (h : ApartFrom t m m') (h' : ApartFrom t m' m'') : ApartFrom t m m'' where
  same := by
    rw [h'.same, h.same]
  scalars name hname := (h'.scalars name hname).trans (h.scalars name hname)
  arrays name hname := (h'.arrays name hname).trans (h.arrays name hname)
  kept name g hg := by
    obtain ⟨g', hg', hsizes, hstrings⟩ := h.kept name g hg
    obtain ⟨g'', hg'', hsizes', hstrings'⟩ := h'.kept name g' hg'
    exact ⟨g'', hg'', hsizes'.trans hsizes, hstrings'.trans hstrings⟩

theorem insert_scalar (m : Machine) (name : Name) (v : Value) :
    ApartFrom (.scalar name) m { m with scalars := m.scalars.insert name v } where
  same := rfl
  scalars other hother := by
    have hne : name ≠ other := fun heq => hother (heq ▸ rfl)
    rw [Std.ExtTreeMap.getElem?_insert, if_neg (by simpa using hne)]
  arrays _ _ := rfl
  kept _ g hg := ⟨g, hg, rfl, rfl⟩

/-- An array may be put where there was none, or in place of one of the same sizes and type. -/
theorem insert_array (hg : ∀ g₀, m.arrays[name]? = some g₀ →
    g.sizes = g₀.sizes ∧ g.strings = g₀.strings) (index : List Int) :
    ApartFrom (.element name index) m { m with arrays := m.arrays.insert name g } where
  same := rfl
  scalars _ _ := rfl
  arrays other hother := by
    have hne : name ≠ other := by
      rintro rfl
      exact hother index rfl
    exact arrays_insert_of_ne hne m g
  kept other g₀ hg₀ := by
    by_cases heq : name = other
    · subst heq
      exact ⟨g, arrays_insert_self m name g, hg g₀ hg₀⟩
    · exact ⟨g₀, (arrays_insert_of_ne heq m g).trans hg₀, rfl, rfl⟩

end ApartFrom

/-- A write to an array that is there. -/
theorem concludes_set (hg : m.arrays[name]? = some g) (index : List Int) (v : Value) :
    Concludes
      (fun _ m' => m'.seen = Function.update m.seen (.element name index) v ∧
        m.ApartFrom (.element name index) m')
      (fun _ m' => m' = m)
      (match g.set index v with
        | .ok g' => .ok () { m with arrays := m.arrays.insert name g' }
        | .error c => .error c m : EStateM.Result Cause Machine Unit) := by
  cases hset : g.set index v with
  | ok g' =>
    obtain ⟨-, hindex, rfl⟩ := Grid.set_eq_ok_iff.mp hset
    refine ⟨seen_insert_put hg hindex v, .insert_array (fun g₀ hg₀ => ?_) index⟩
    rw [hg] at hg₀
    cases hg₀
    exact ⟨rfl, rfl⟩
  | error c => rfl

/-- An assignment that succeeds is seen at its target and nowhere else, and one that fails is not
seen at all. Either way the other scalars and arrays are as they were, an array that was there keeps
its sizes and its type, and all that is no variable stays: the functions, the stored lines with the
pending calls and loops and the place in the data, and what was shown. -/
theorem assign_one_slot (t : Target) (v : Value) (m : Machine) :
    Concludes
      (fun _ m' => m'.seen = Function.update m.seen t v ∧ m.ApartFrom t m')
      (fun _ m' => m'.seen = m.seen ∧ m.ApartFrom t m') (assign t v m) := by
  by_cases hv : v.fits t.name = true
  · cases t with
    | scalar name =>
      change v.fits name = true at hv
      rw [assign_scalar hv]
      exact ⟨seen_insert_scalar m name v, .insert_scalar m name v⟩
    | element name index =>
      change v.fits name = true at hv
      rw [assign_element hv]
      rcases arrayFor_cases name index.length m with
        ⟨g, hg, harray⟩ | ⟨g, hnone, hfirst, harray⟩ | ⟨c, harray⟩
      · rw [harray]
        refine (concludes_set hg index v).mono (fun _ _ h => h) ?_
        rintro c m' rfl
        exact ⟨rfl, .refl _ _⟩
      · rw [harray]
        have hseen := seen_insert_first hnone hfirst
        have hmade : m.ApartFrom (.element name index)
            { m with arrays := m.arrays.insert name g } :=
          .insert_array (fun g₀ hg₀ => by rw [hnone] at hg₀; cases hg₀) index
        refine (concludes_set (arrays_insert_self m name g) index v).mono ?_ ?_
        · rintro _ m' ⟨hwritten, hapart⟩
          exact ⟨hseen ▸ hwritten, hmade.trans hapart⟩
        · rintro c m' rfl
          exact ⟨hseen, hmade⟩
      · rw [harray]
        exact ⟨rfl, .refl _ _⟩
  · rw [assign_of_not_fits hv]
    exact ⟨rfl, .refl t m⟩

end LineBasic.Machine
