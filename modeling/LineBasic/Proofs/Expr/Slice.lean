import LineBasic.Proofs.Expr.Fault
import LineBasic.Proofs.Number.Floor

/-!
# Slices of strings

`LEFT$`, `RIGHT$` and `MID$` cut a string by numbers: counts, and a start that counts from 1. The
same number of bytes is read off a number in all three, and a start goes through that reading too,
which cuts it off at the length before it is known whether it lies beyond the string. What comes out
is a slice in every case, the empty one included, and the only failure is a number out of range.

Whether a start lies beyond the string is decided by its whole part as a signed number of 64 bits.
What that is from `2 ^ 63` on depends on the machine, so the laws about arbitrary starts are those
of the representable ones.

## Main definitions

* `Builtin.Representable` — the starts whose whole part every machine agrees on
* `Builtin.Beyond` — the starts behind the last byte of a string
* `Builtin.Slices` — the laws of the three functions on one string

## Main results

* `Number.count_eq_error_iff` — the numbers that are no counts
* `Builtin.representable_of_floor?` — a start with a whole part below `2 ^ 63` is representable
* `Builtin.fromPlace_of_lt`, `Builtin.fromPlace_of_beyond`, `Builtin.fromPlace_of_floor?` — what a
  start leaves of a string
* `Builtin.slices` — the laws hold of every string
-/

namespace LineBasic

/-! ### Counts -/

namespace Number

/-- The bytes that a number in range asks for. -/
def clamp (x : Float) (length : Nat) : Nat :=
  match floor? x with
  | some i => min i.toNat length
  | none => length

/-- The numbers that are no counts are the negative ones and NaN. -/
theorem count_eq (x : Float) (length : Nat) :
    count x length =
      if x < 0 ∨ x.isNaN then .error .illegalQuantity else .ok (clamp x length) := by
  cases h : floor? x with
  | some i =>
    rw [isNaN_of_floor? h]
    simp [count, clamp, h, floor?_lt_iff h is_zero]
  | none =>
    rw [count, clamp, h]
    rcases value?_of_floor?_eq_none h with hx | hx | hx
    · have hnan := isNaN_iff.mpr hx
      rw [hnan]
      simp [(not_lt_of_isNaN hnan 0).2]
    · have hpos : 0 < x := (lt_iff is_zero hx).mpr (WithBot.coe_lt_coe.mpr (WithTop.coe_lt_top _))
      have hneg : ¬ x < 0 := fun hlt => not_top_lt ((lt_iff hx is_zero).mp hlt)
      rw [isNaN_eq_false hx]
      simp [hpos, hneg]
    · have hneg : x < 0 := (lt_iff hx is_zero).mpr (WithBot.bot_lt_coe _)
      have hpos : ¬ 0 < x := fun hlt => not_lt_bot ((lt_iff is_zero hx).mp hlt)
      simp [hneg, hpos]

theorem count_eq_error_iff {x : Float} (length : Nat) {c : Cause} :
    count x length = .error c ↔ c = .illegalQuantity ∧ (x < 0 ∨ x.isNaN) := by
  rw [count_eq]
  split
  · next h =>
    rw [and_iff_left h, Except.error.injEq]
    exact eq_comm
  · next h => simp only [h, and_false, reduceCtorEq]

/-- A number counts like its floor. -/
theorem count_floor (x : Float) (length : Nat) : count (floor x) length = count x length := by
  have hrange : (floor x < 0 ∨ (floor x).isNaN) ↔ (x < 0 ∨ x.isNaN) := by
    rw [floor_lt_iff is_zero, isNaN_floor]
  simp only [count_eq, clamp, floor?_floor, hrange]

theorem count_ofNat {n : Nat} (hmax : n ≤ 2 ^ 53) (length : Nat) :
    count (ofNat n) length = .ok (min n length) := by
  have hfloor := floor?_of_is (is_ofNat hmax)
  have hnonneg : ¬ ofNat n < 0 := by
    rw [← floor?_lt_iff hfloor is_zero]
    omega
  have hcounts : ¬(ofNat n < 0 ∨ (ofNat n).isNaN = true) := by
    rw [isNaN_of_floor? hfloor]
    simp [hnonneg]
  rw [count_eq, if_neg hcounts, clamp, hfloor]
  rfl

end Number

namespace Builtin

/-! ### What is cut out -/

theorem slice_eq_ok {s : Bytes} {low high : Nat} (hle : low ≤ high) (hhigh : high ≤ s.length) :
    slice s low high = .ok ((s.take high).drop low) := by
  rw [slice, if_pos ⟨by omega, by omega, by omega⟩, Int.toNat_natCast]

theorem leftOf_eq (s : Bytes) (x : Float) : leftOf s x = (Number.count x s.length).map s.take := by
  cases h : Number.count x s.length with
  | error c => rw [leftOf, h]; rfl
  | ok k =>
    have hslice := slice_eq_ok (Nat.zero_le k) (Number.count_le h)
    rw [leftOf, h]
    exact hslice

theorem rightOf_eq (s : Bytes) (x : Float) :
    rightOf s x = (Number.count x s.length).map fun k => s.drop (s.length - k) := by
  cases h : Number.count x s.length with
  | error c => rw [rightOf, h]; rfl
  | ok k =>
    have hk := Number.count_le h
    have hslice := slice_eq_ok (Nat.sub_le s.length k) (Nat.le_refl s.length)
    rw [List.take_length, Int.ofNat_sub hk] at hslice
    rw [rightOf, h]
    exact hslice

/-- The starts whose whole part every machine agrees on, if they have one: those below `2 ^ 63`, and
NaN, which fails before a whole part is asked for. -/
def Representable (place : Float) : Prop :=
  ∀ a, Number.value? place = some a → a < (((2 ^ 63 : ℚ) : WithTop ℚ) : Number.Extended)

/-- The starts behind the last byte of a string. -/
def Beyond (s : Bytes) (place : Float) : Prop :=
  ∃ i, Number.floor? place = some i ∧ (s.length : Int) < i

/-- A start with a whole part below `2 ^ 63` is representable. -/
theorem representable_of_floor? {place : Float} {i : Int} (h : Number.floor? place = some i)
    (hi : i < 2 ^ 63) : Representable place := by
  obtain ⟨q, hq, rfl⟩ := Number.floor?_eq_some_iff.mp h
  intro a ha
  obtain rfl := Option.some.inj (hq.symm.trans ha)
  have hlt : q < 2 ^ 63 := by exact_mod_cast Int.floor_lt.mp hi
  exact WithBot.coe_lt_coe.mpr (WithTop.coe_lt_coe.mpr hlt)

theorem fromPlace_of_lt (s : Bytes) {place : Float} (h : place < 1 ∨ place.isNaN) :
    fromPlace s place = .error .illegalQuantity := by
  rw [fromPlace]
  cases hcount : Number.count place s.length with
  | error c =>
    obtain ⟨rfl, -⟩ := (Number.count_eq_error_iff _).mp hcount
    rfl
  | ok start =>
    have hlt : place < 1 := by
      refine h.resolve_right fun hnan => ?_
      cases hcount ▸ (Number.count_eq_error_iff _).mpr ⟨rfl, .inr hnan⟩
    change (if place < 1 then _ else _) = _
    rw [if_pos hlt]

/-- A start that is no error goes through the reading of counts without one. -/
theorem exists_count {s : Bytes} {place : Float} (hlt : ¬ place < 1)
    (hnan : place.isNaN = false) : ∃ start, Number.count place s.length = .ok start := by
  cases hcount : Number.count place s.length with
  | ok start => exact ⟨start, rfl⟩
  | error c =>
    obtain ⟨-, hneg | hisNaN⟩ := (Number.count_eq_error_iff _).mp hcount
    · obtain ⟨a, ha⟩ := Number.exists_value? hnan
      rw [Number.lt_iff ha Number.is_zero] at hneg
      rw [Number.lt_iff ha Number.is_one] at hlt
      exact absurd (hneg.trans (by simp)) hlt
    · rw [hnan] at hisNaN
      cases hisNaN

/-- Of a start behind the string nothing is left, and no bytes are cut out. -/
theorem fromPlace_of_beyond {s : Bytes} {place : Float} (hlt : ¬ place < 1)
    (h : Beyond s place) : fromPlace s place = .ok none := by
  obtain ⟨i, hfloor, hi⟩ := h
  obtain ⟨start, hstart⟩ := exists_count (s := s) hlt (Number.isNaN_of_floor? hfloor)
  rw [fromPlace, hstart]
  change (if place < 1 then _ else _) = _
  rw [if_neg hlt, hfloor]
  exact if_pos hi

/-- A start within the string leaves what stands from there on. -/
theorem fromPlace_of_floor? {s : Bytes} {place : Float} {i : Int} (hlt : ¬ place < 1)
    (hfloor : Number.floor? place = some i) (hi : i ≤ s.length) :
    fromPlace s place = .ok (some (s.drop (i.toNat - 1))) := by
  have hpos := Number.one_le_of_not_lt hfloor hlt
  have hnan := Number.isNaN_of_floor? hfloor
  have hstart : Number.count place s.length = .ok i.toNat := by
    obtain ⟨start, hstart⟩ := exists_count (s := s) hlt hnan
    rw [Number.count, hfloor] at hstart ⊢
    dsimp only at hstart ⊢
    rw [if_neg (by omega), min_eq_left (by omega)]
  have hslice := slice_eq_ok (s := s) (show i.toNat - 1 ≤ s.length by omega) (Nat.le_refl s.length)
  rw [List.take_length, Int.ofNat_sub (by omega)] at hslice
  rw [fromPlace, hstart]
  change (if place < 1 then _ else _) = _
  rw [if_neg hlt, hfloor]
  dsimp only
  rw [if_neg (by omega)]
  exact congrArg (Except.map some) hslice

/-- The three ways that a representable start can lie. -/
theorem fromPlace_cases (s : Bytes) {place : Float} (hplace : Representable place) :
    ((place < 1 ∨ place.isNaN) ∧ fromPlace s place = .error .illegalQuantity) ∨
      (¬ (place < 1 ∨ place.isNaN) ∧ Beyond s place ∧ fromPlace s place = .ok none) ∨
      (¬ (place < 1 ∨ place.isNaN) ∧ ¬ Beyond s place ∧
        ∃ i, Number.floor? place = some i ∧ 1 ≤ i ∧ i ≤ s.length ∧
          fromPlace s place = .ok (some (s.drop (i.toNat - 1)))) := by
  by_cases h : place < 1 ∨ place.isNaN
  · exact .inl ⟨h, fromPlace_of_lt s h⟩
  · obtain ⟨hlt, hnan⟩ := not_or.mp h
    cases hfloor : Number.floor? place with
    | none =>
      -- what has no whole part is NaN, not representable or below every start
      rcases Number.value?_of_floor?_eq_none hfloor with hx | hx | hx
      · exact absurd (Number.isNaN_iff.mpr hx) hnan
      · exact absurd (hplace ⊤ hx) not_top_lt
      · exact absurd ((Number.lt_iff hx Number.is_one).mpr (WithBot.bot_lt_coe _)) hlt
    | some i =>
      by_cases hi : (s.length : Int) < i
      · exact .inr (.inl ⟨h, ⟨i, hfloor, hi⟩, fromPlace_of_beyond hlt ⟨i, hfloor, hi⟩⟩)
      · have hwithin : ¬ Beyond s place := by
          rintro ⟨j, hj, hlength⟩
          obtain rfl := Option.some.inj (hfloor.symm.trans hj)
          exact hi hlength
        exact .inr (.inr ⟨h, hwithin, i, rfl, Number.one_le_of_not_lt hfloor hlt, not_lt.mp hi,
          fromPlace_of_floor? hlt hfloor (not_lt.mp hi)⟩)

/-! ### The three functions -/

section Values

variable {s : Bytes} {x place : Float}

theorem value_left :
    value .left [.str s, .num x] = (Number.count x s.length).map fun k => .str (s.take k) := by
  have hvalue : value .left [.str s, .num x] = (leftOf s x).map .str := by
    cases h : leftOf s x <;> simp [value, Value.string, Value.number, bind, Except.bind, h] <;> rfl
  rw [hvalue, leftOf_eq]
  cases Number.count x s.length <;> rfl

theorem value_right :
    value .right [.str s, .num x] =
      (Number.count x s.length).map fun k => .str (s.drop (s.length - k)) := by
  have hvalue : value .right [.str s, .num x] = (rightOf s x).map .str := by
    cases h : rightOf s x <;> simp [value, Value.string, Value.number, bind, Except.bind, h] <;> rfl
  rw [hvalue, rightOf_eq]
  cases Number.count x s.length <;> rfl

theorem value_mid :
    value .mid [.str s, .num place] = (fromPlace s place).map fun tail => .str (tail.getD []) := by
  rcases h : fromPlace s place with c | _ | t <;>
    simp [value, midOf, Value.string, Value.number, bind, Except.bind, h] <;> rfl

/-- A count is looked at only where the start has left something to count in. -/
theorem value_mid_count :
    value .mid [.str s, .num place, .num x] =
      match fromPlace s place with
      | .error c => .error c
      | .ok none => .ok (.str [])
      | .ok (some t) => value .left [.str t, .num x] := by
  rcases h : fromPlace s place with c | _ | t
  · simp [value, midOf, Value.string, Value.number, bind, Except.bind, h]
  · simp [value, midOf, Value.string, Value.number, bind, Except.bind, h]
    rfl
  · simp [value, midOf, Value.string, Value.number, bind, Except.bind, h]

theorem value_left_eq_error_iff {c : Cause} :
    value .left [.str s, .num x] = .error c ↔ c = .illegalQuantity ∧ (x < 0 ∨ x.isNaN) := by
  rw [value_left, ← Number.count_eq_error_iff s.length]
  cases Number.count x s.length <;> simp [Except.map]

theorem value_right_eq_error_iff {c : Cause} :
    value .right [.str s, .num x] = .error c ↔ c = .illegalQuantity ∧ (x < 0 ∨ x.isNaN) := by
  rw [value_right, ← Number.count_eq_error_iff s.length]
  cases Number.count x s.length <;> simp [Except.map]

theorem value_mid_eq_error_iff {c : Cause} (hplace : Representable place) :
    value .mid [.str s, .num place] = .error c ↔
      c = .illegalQuantity ∧ (place < 1 ∨ place.isNaN) := by
  rw [value_mid]
  obtain ⟨h, heq⟩ | ⟨h, -, heq⟩ | ⟨h, -, i, -, -, -, heq⟩ := fromPlace_cases s hplace
  · rw [heq, and_iff_left h]
    simp [Except.map, eq_comm]
  · simp only [heq, h, Except.map, and_false, reduceCtorEq]
  · simp only [heq, h, Except.map, and_false, reduceCtorEq]

theorem value_mid_count_eq_error_iff {c : Cause} (hplace : Representable place) :
    value .mid [.str s, .num place, .num x] = .error c ↔
      c = .illegalQuantity ∧
        ((place < 1 ∨ place.isNaN) ∨ ¬ Beyond s place ∧ (x < 0 ∨ x.isNaN)) := by
  rw [value_mid_count]
  obtain ⟨h, heq⟩ | ⟨h, hbeyond, heq⟩ | ⟨h, hwithin, i, -, -, -, heq⟩ := fromPlace_cases s hplace
  · rw [heq, and_iff_left (.inl h)]
    simp [eq_comm]
  · simp only [heq, h, hbeyond, not_true, false_and, or_false, and_false, reduceCtorEq]
  · simp only [heq, value_left_eq_error_iff, h, hwithin, false_or, not_false_eq_true, true_and]

/-! ### Whole numbers -/

variable {n : Nat}

theorem value_left_ofNat (hn : n ≤ 2 ^ 53) :
    value .left [.str s, .num (Number.ofNat n)] = .ok (.str (s.take n)) := by
  rw [value_left, Number.count_ofNat hn]
  simp [Except.map, ← List.take_eq_take_min]

theorem value_right_ofNat (hn : n ≤ 2 ^ 53) :
    value .right [.str s, .num (Number.ofNat n)] = .ok (.str (s.drop (s.length - n))) := by
  have hdrop : s.length - min n s.length = s.length - n := by omega
  rw [value_right, Number.count_ofNat hn]
  simp [Except.map, hdrop]

theorem fromPlace_ofNat (hn : n + 1 ≤ 2 ^ 53) :
    fromPlace s (Number.ofNat (n + 1)) = .ok (if n < s.length then some (s.drop n) else none) := by
  have hfloor := Number.floor?_of_is (Number.is_ofNat hn)
  have hlt : ¬ Number.ofNat (n + 1) < 1 := by
    rw [← Number.floor?_lt_iff hfloor Number.is_one]
    omega
  split
  · next h =>
    rw [fromPlace_of_floor? hlt hfloor (by omega), Int.toNat_natCast, Nat.add_sub_cancel]
  · next h => exact fromPlace_of_beyond hlt ⟨_, hfloor, by omega⟩

theorem value_mid_ofNat (hn : n + 1 ≤ 2 ^ 53) :
    value .mid [.str s, .num (Number.ofNat (n + 1))] = .ok (.str (s.drop n)) := by
  rw [value_mid, fromPlace_ofNat hn]
  split
  · rfl
  · next h => simp [Except.map, List.drop_eq_nil_of_le (Nat.not_lt.mp h)]

theorem value_mid_count_ofNat {k : Nat} (hn : n + 1 ≤ 2 ^ 53) (hk : k ≤ 2 ^ 53) :
    value .mid [.str s, .num (Number.ofNat (n + 1)), .num (Number.ofNat k)] =
      .ok (.str ((s.drop n).take k)) := by
  rw [value_mid_count, fromPlace_ofNat hn]
  by_cases h : n < s.length
  · rw [if_pos h]
    exact value_left_ofNat hk
  · rw [if_neg h, List.drop_eq_nil_of_le (Nat.not_lt.mp h), List.take_nil]

/-! ### Numbers with a fraction -/

theorem fromPlace_floor : fromPlace s (Number.floor place) = fromPlace s place := by
  simp only [fromPlace, Number.count_floor, Number.floor?_floor,
    Number.floor_lt_iff Number.is_one]

theorem value_left_floor :
    value .left [.str s, .num (Number.floor x)] = value .left [.str s, .num x] := by
  rw [value_left, value_left, Number.count_floor]

theorem value_right_floor :
    value .right [.str s, .num (Number.floor x)] = value .right [.str s, .num x] := by
  rw [value_right, value_right, Number.count_floor]

theorem value_mid_floor :
    value .mid [.str s, .num (Number.floor place)] = value .mid [.str s, .num place] := by
  rw [value_mid, value_mid, fromPlace_floor]

theorem value_mid_count_floor :
    value .mid [.str s, .num (Number.floor place), .num (Number.floor x)] =
      value .mid [.str s, .num place, .num x] := by
  simp only [value_mid_count, fromPlace_floor, value_left_floor]

end Values

/-! ### The laws -/

/-- The laws of slices. Numbers are written as `Number.ofNat` where they stand for integers, and the
equations of values also say that there is one. Where a start is an arbitrary number, it is a
representable one; of the others, plus infinity among them, nothing is said. -/
structure Slices (s : Bytes) : Prop where
  /-- The left slice is the beginning with as many bytes, or all of them. -/
  left (n : Nat) (hn : n < 2 ^ 53) : ∃ t, t <+: s ∧ t.length = min n s.length ∧
    value .left [.str s, .num (Number.ofNat n)] = .ok (.str t)
  /-- The right slice is the end with as many bytes, or all of them. -/
  right (n : Nat) (hn : n < 2 ^ 53) : ∃ t, t <:+ s ∧ t.length = min n s.length ∧
    value .right [.str s, .num (Number.ofNat n)] = .ok (.str t)
  /-- What is cut off on the left is what the middle slice leaves. -/
  left_add_mid (n : Nat) (hn : n < 2 ^ 53) : ∃ v w,
    value .left [.str s, .num (Number.ofNat n)] = .ok v ∧
      value .mid [.str s, .num (Number.ofNat (n + 1))] = .ok w ∧
      BinaryOp.add.apply v w = .ok (.str s)
  /-- A middle slice with a count is the left slice of the one without. -/
  mid_eq_left (i k : Nat) (hpos : 1 ≤ i) (hi : i < 2 ^ 53) (hk : k < 2 ^ 53) : ∃ v w,
    value .mid [.str s, .num (Number.ofNat i)] = .ok v ∧
      value .left [v, .num (Number.ofNat k)] = .ok w ∧
      value .mid [.str s, .num (Number.ofNat i), .num (Number.ofNat k)] = .ok w
  /-- A number with a fraction counts as its floor, in every argument. -/
  left_floor (x : Float) :
    value .left [.str s, .num (Number.floor x)] = value .left [.str s, .num x]
  right_floor (x : Float) :
    value .right [.str s, .num (Number.floor x)] = value .right [.str s, .num x]
  mid_floor (place : Float) (hplace : Representable place) :
    value .mid [.str s, .num (Number.floor place)] = value .mid [.str s, .num place]
  mid_count_floor (place x : Float) (hplace : Representable place) :
    value .mid [.str s, .num (Number.floor place), .num (Number.floor x)] =
      value .mid [.str s, .num place, .num x]
  /-- The left slice fails with a negative count and with NaN only. -/
  left_error (x : Float) (c : Cause) :
    value .left [.str s, .num x] = .error c ↔ c = .illegalQuantity ∧ (x < 0 ∨ x.isNaN)
  /-- The right slice fails with the same counts. -/
  right_error (x : Float) (c : Cause) :
    value .right [.str s, .num x] = .error c ↔ c = .illegalQuantity ∧ (x < 0 ∨ x.isNaN)
  /-- The middle slice fails with a start below 1 and with NaN only. -/
  mid_error (place : Float) (hplace : Representable place) (c : Cause) :
    value .mid [.str s, .num place] = .error c ↔
      c = .illegalQuantity ∧ (place < 1 ∨ place.isNaN)
  /-- With a count it fails with the counts that the left slice fails with, too, unless the start
  lies behind the string. -/
  mid_count_error (place : Float) (hplace : Representable place) (x : Float) (c : Cause) :
    value .mid [.str s, .num place, .num x] = .error c ↔
      c = .illegalQuantity ∧
        ((place < 1 ∨ place.isNaN) ∨ ¬ Beyond s place ∧ (x < 0 ∨ x.isNaN))

/-- The functions are slices, of every string. -/
theorem slices (s : Bytes) : Slices s where
  left n hn := ⟨s.take n, List.take_prefix n s, List.length_take, value_left_ofNat hn.le⟩
  right n hn := by
    refine ⟨s.drop (s.length - n), List.drop_suffix _ s, ?_, value_right_ofNat hn.le⟩
    rw [List.length_drop]
    omega
  left_add_mid n hn := by
    refine ⟨_, _, value_left_ofNat hn.le, value_mid_ofNat hn, ?_⟩
    rw [BinaryOp.apply, List.take_append_drop]
  mid_eq_left i k hpos hi hk := by
    obtain ⟨j, rfl⟩ := Nat.exists_eq_add_of_le' hpos
    exact ⟨_, _, value_mid_ofNat hi.le, value_left_ofNat hk.le, value_mid_count_ofNat hi.le hk.le⟩
  left_floor _ := value_left_floor
  right_floor _ := value_right_floor
  mid_floor _ _ := value_mid_floor
  mid_count_floor _ _ _ := value_mid_count_floor
  left_error _ _ := value_left_eq_error_iff
  right_error _ _ := value_right_eq_error_iff
  mid_error _ hplace _ := value_mid_eq_error_iff hplace
  mid_count_error _ hplace _ _ := value_mid_count_eq_error_iff hplace

/-- A count that is no count, which nothing looks at. -/
example : value .mid [.str (utf8 "AB"), .num 3, .num (-1)] = .ok (.str []) := by rfl

end Builtin

end LineBasic
