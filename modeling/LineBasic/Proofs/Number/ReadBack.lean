import LineBasic.Builtin
import LineBasic.Proofs.Number.Binary64
import LineBasic.Proofs.Number.Numeral

/-!
# Reading a written number back

The text of a finite number reads as the same number. The digits of the text are found by trying
which of them read back, so most of this holds by construction; what remains is that the exact
decimal, which is written when the search finds nothing, is read without rounding, and that digits
followed by zeros read as the digits with a power of ten.

## Main results

* `Number.read?_write` — a finite number is read back from its text
* `Number.lineNumber_read?_decimal` — a line number is read back from its digits
-/

namespace LineBasic

open Float.Model Float.Model.UnpackedFloat

namespace Numeral

/-! ### Powers of ten -/

theorem ofScientific_nonneg {n : Nat} (hn : n ≠ 0) {k : Nat} (hk : k ≤ 2048) :
    UnpackedFloat.ofScientific Format.binary64 n k =
      roundWithAccuracy Format.binary64 .positive (n * 10 ^ k * 2 ^ 53) (-53) .exact := by
  have hm : (n <<< 53) * 10 ^ k = n * 10 ^ k * 2 ^ 53 := by
    rw [Nat.shiftLeft_eq, Nat.mul_right_comm]
  rw [UnpackedFloat.ofScientific, dif_neg hn, if_neg (by simp; omega), if_neg (by simp; omega),
    if_pos (by omega), ← hm]
  rfl

theorem ofScientific_neg {n : Nat} (hn : n ≠ 0) {k : Nat} (hpos : 0 < k) (hk : k ≤ 2048) :
    UnpackedFloat.ofScientific Format.binary64 n (-k) =
      let (m, e, accuracy) := divCore Format.binary64 n 0 (10 ^ k) 0
      roundWithAccuracy Format.binary64 .positive m e accuracy := by
  rw [UnpackedFloat.ofScientific, dif_neg hn, if_neg (by simp), if_neg (by simp; omega),
    if_neg (by omega)]
  have hten : 10 ^ (- -(k : Int)).toNat = 10 ^ k := by rw [Int.neg_neg, Int.toNat_natCast]
  rw [Number.finite_congr _ _ hten rfl]
  rfl

/-- Digits followed by zeros are the digits with a power of ten. -/
theorem magnitude_scale (n : Nat) {k : Nat} (hk : k ≤ 2048) :
    magnitude (n * 10 ^ k) 0 = magnitude n k := by
  by_cases hn : n = 0
  · simp [hn, magnitude, Float.Model.ofScientific, UnpackedFloat.ofScientific]
  · have hscaled := ofScientific_nonneg (n := n * 10 ^ k) (k := 0)
      (Nat.mul_ne_zero hn (by simp)) (by omega)
    rw [Nat.pow_zero, Nat.mul_one, ← ofScientific_nonneg hn hk] at hscaled
    exact congrArg (fun u => Float.ofModel (.pack u)) hscaled

/-! ### Exact decimals -/

theorem log2_mul_le {a b : Nat} (ha : a ≠ 0) (hb : b ≠ 0) : (a * b).log2 ≤ a.log2 + b.log2 + 1 := by
  have hlt := Nat.mul_lt_mul'' (Nat.lt_log2_self (n := a)) (Nat.lt_log2_self (n := b))
  rw [← Nat.pow_add] at hlt
  have := (Nat.log2_lt (Nat.mul_ne_zero ha hb)).mpr hlt
  omega

/-- A binary fraction is divided out of its exact decimal without remainder. -/
theorem divCore_exact {m : Nat} {e : Int} (hc : Number.Canonical m e) {k : Nat} (hk : e = -k)
    (hpos : 0 < k) :
    ∃ j : Nat, divCore Format.binary64 (m * 5 ^ k) 0 (10 ^ k) 0 = (m * 2 ^ j, e - j, .exact) := by
  have hm := Nat.ne_of_gt hc.pos
  have hpow : 10 ^ k = 5 ^ k * 2 ^ k := by rw [← Nat.mul_pow]
  have hfive : 5 ^ k ≠ 0 := Nat.ne_of_gt (Nat.pow_pos (by decide))
  -- the quotient is computed with at least as many bits as the number holds
  have htarget : Format.binary64.targetExponent
      (totalExponent (m * 5 ^ k) 0 - totalExponent (10 ^ k) 0) ≤ e := by
    have hcanonical := hc.target
    rw [Number.target_eq] at hcanonical
    have hlog := log2_mul_le hm hfive
    rw [Number.targetExponent_eq, totalExponent, totalExponent, hpow, Number.log2_mul_pow hfive]
    omega
  have hleast : ∃ t : Int, min (0 - 0) (Format.binary64.targetExponent
      (totalExponent (m * 5 ^ k) 0 - totalExponent (10 ^ k) 0)) = t ∧ t ≤ e :=
    ⟨_, rfl, by omega⟩
  obtain ⟨t, ht, hle⟩ := hleast
  obtain ⟨j, rfl⟩ : ∃ j : Nat, t = e - j := ⟨(e - t).toNat, by omega⟩
  have hshift : ((0 : Int) - 0 - (e - j)).toNat = j + k := by omega
  have hshifted : (m * 5 ^ k) <<< (j + k) = m * 2 ^ j * 10 ^ k := by
    rw [Nat.shiftLeft_eq, hpow, Nat.pow_add, Nat.mul_mul_mul_comm]
  have hten : 0 < 10 ^ k := Nat.pow_pos (by decide)
  refine ⟨j, ?_⟩
  rw [divCore, ht, hshift, hshifted, Nat.mul_div_cancel _ hten, Nat.mul_mod_left]
  rfl

/-- An exact decimal is read without rounding. -/
theorem magnitude_exact {m : Nat} {e : Int} (hc : Number.Canonical m e) :
    magnitude (Shortest.exact m e).digits (Shortest.exact m e).exponent =
      Float.ofModel (.pack (.finite .positive m e hc.pos)) := by
  have hm := Nat.ne_of_gt hc.pos
  suffices h : UnpackedFloat.ofScientific Format.binary64 (Shortest.exact m e).digits
      (Shortest.exact m e).exponent = .finite .positive m e hc.pos from
    congrArg (fun u => Float.ofModel (.pack u)) h
  rcases Int.lt_or_le e 0 with he | he
  · have hk : e = -((-e).toNat : Int) := by omega
    have hleast := hc.least
    obtain ⟨j, hdiv⟩ := divCore_exact hc hk (by omega)
    have hdigits : m * 5 ^ (-e).toNat ≠ 0 := Nat.mul_ne_zero hm (by simp)
    have hneg := ofScientific_neg hdigits (k := (-e).toNat) (by omega) (by omega)
    rw [hdiv, ← hk] at hneg
    rw [Shortest.exact, if_neg (Int.not_le.mpr he)]
    exact hneg.trans (Number.round_exact .positive hc j)
  · have hk : e = (e.toNat : Int) := by omega
    have hdigits : m * 2 ^ e.toNat ≠ 0 := Nat.mul_ne_zero hm (by simp)
    have hnonneg := ofScientific_nonneg hdigits (k := 0) (by omega)
    have hround := Number.round_exact .positive hc (e.toNat + 53)
    rw [show e - ((e.toNat + 53 : Nat) : Int) = -53 by omega, Nat.pow_add,
      ← Nat.mul_assoc] at hround
    rw [Nat.pow_zero, Nat.mul_one] at hnonneg
    rw [Shortest.exact, if_pos he]
    exact hnonneg.trans hround

theorem ten_pow_sub_le {k a : Nat} (ha : a ≤ k) (htwo : 2 ^ k ≤ 10 ^ a) : 10 ^ (k - a) ≤ 5 ^ k := by
  apply Nat.le_of_mul_le_mul_right _ (Nat.two_pow_pos k)
  calc 10 ^ (k - a) * 2 ^ k ≤ 10 ^ (k - a) * 10 ^ a := Nat.mul_le_mul_left _ htwo
    _ = 10 ^ k := by rw [← Nat.pow_add, Nat.sub_add_cancel ha]
    _ = 5 ^ k * 2 ^ k := by rw [← Nat.mul_pow]

/-- The first digit of a number's exact decimal is within reach. -/
theorem reach_exact {m : Nat} {e : Int} (hc : Number.Canonical m e) :
    -330 ≤ reach ⟨false, (Shortest.exact m e).digits, (Shortest.exact m e).exponent⟩ ∧
      reach ⟨false, (Shortest.exact m e).digits, (Shortest.exact m e).exponent⟩ ≤ 310 := by
  have hm := Nat.ne_of_gt hc.pos
  have hbits := hc.bits
  have hleast := hc.least
  have hmost := hc.most
  rcases Int.lt_or_le e 0 with he | he
  · obtain ⟨k, rfl⟩ : ∃ k : Nat, e = -k := ⟨(-e).toNat, by omega⟩
    have hk : (- -(k : Int)).toNat = k := by omega
    simp only [reach, Shortest.exact, if_neg (Int.not_le.mpr he), hk, Nat.pow_eq]
    have hlow := Bytes.lt_ten_pow_length (m * 5 ^ k)
    have hhigh := Bytes.ten_pow_length_le (n := m * 5 ^ k) (Nat.mul_ne_zero hm (by simp))
    generalize (Bytes.decimal (m * 5 ^ k)).length = l at hlow hhigh
    constructor
    · -- `5 ^ k` has almost as many digits as `10 ^ k`, since `2 ^ k` has at most 330
      rcases Nat.lt_or_ge k 331 with hsmall | hlarge
      · omega
      · have htwo : 2 ^ k ≤ 10 ^ 330 :=
          Nat.le_trans (Nat.pow_le_pow_right (by decide) (show k ≤ 1074 by omega))
            (by decide +kernel)
        have hfive := ten_pow_sub_le (Nat.le_of_succ_le hlarge) htwo
        have hlt : 10 ^ (k - 330) < 10 ^ l :=
          Nat.lt_of_le_of_lt (Nat.le_trans hfive (Nat.le_mul_of_pos_left _ hc.pos)) hlow
        have := (Nat.pow_lt_pow_iff_right (by decide)).mp hlt
        omega
    · have hlt : 10 ^ l < 10 ^ (k + 18) := by
        have hfive : 5 ^ k ≤ 10 ^ k := Nat.pow_le_pow_left (by decide) k
        calc 10 ^ l ≤ 10 * (m * 5 ^ k) := hhigh
          _ ≤ 10 * (m * 10 ^ k) := Nat.mul_le_mul_left _ (Nat.mul_le_mul_left _ hfive)
          _ = 10 * m * 10 ^ k := (Nat.mul_assoc _ _ _).symm
          _ < 10 ^ 18 * 10 ^ k := Nat.mul_lt_mul_of_pos_right (by omega) (Nat.pow_pos (by decide))
          _ = 10 ^ (k + 18) := by rw [Nat.add_comm, Nat.pow_add]
      have := (Nat.pow_lt_pow_iff_right (by decide)).mp hlt
      omega
  · obtain ⟨k, rfl⟩ : ∃ k : Nat, e = k := ⟨e.toNat, by omega⟩
    simp only [reach, Shortest.exact, if_pos he, Int.toNat_natCast, Nat.pow_eq]
    have hhigh := Bytes.ten_pow_length_le (n := m * 2 ^ k) (Nat.mul_ne_zero hm (by simp))
    have hexponent : k ≤ 971 := by omega
    have htwo := Nat.pow_le_pow_right (n := 2) (by decide) hexponent
    have hlt : 10 ^ (Bytes.decimal (m * 2 ^ k)).length < 10 ^ 311 := by
      calc 10 ^ (Bytes.decimal (m * 2 ^ k)).length ≤ 10 * (m * 2 ^ k) := hhigh
        _ ≤ 10 * (2 ^ 53 * 2 ^ 971) :=
          Nat.mul_le_mul_left _ (Nat.mul_le_mul (Nat.le_of_lt hbits) htwo)
        _ < 10 ^ 311 := by decide +kernel
    have := (Nat.pow_lt_pow_iff_right (by decide)).mp hlt
    omega

/-! ### Values -/

theorem value?_of_magnitude {m : Nat} {e : Int} {x : Float} (hm : m ≠ 0)
    (hlow : -330 ≤ reach ⟨false, m, e⟩) (hhigh : reach ⟨false, m, e⟩ ≤ 310)
    (hx : magnitude m e = x) (hfinite : x.isFinite = true) : value? ⟨false, m, e⟩ = some x := by
  simp only [value?]
  rw [if_neg (by simp [hm]; omega), if_neg (by omega), hx, if_pos hfinite]
  rfl

/-- A numeral after a minus denotes the negated number. -/
theorem value?_negative (m : Nat) (e : Int) :
    value? ⟨true, m, e⟩ = (value? ⟨false, m, e⟩).map fun x => -x := by
  have hreach : reach ⟨true, m, e⟩ = reach ⟨false, m, e⟩ := rfl
  simp only [value?, hreach]
  split
  · rfl
  · split
    · rfl
    · split <;> rfl

/-- Digits followed by zeros denote the same number as the digits with a power of ten. -/
theorem value?_scale (m k : Nat) : value? ⟨false, m * 10 ^ k, 0⟩ = value? ⟨false, m, k⟩ := by
  by_cases hm : m = 0
  · simp [value?, hm]
  · have hreach : reach ⟨false, m * 10 ^ k, 0⟩ = reach ⟨false, m, k⟩ := by
      simp only [reach, Bytes.length_decimal_mul_pow hm]
      omega
    have hne : m * 10 ^ k ≠ 0 := Nat.mul_ne_zero hm (by simp)
    simp only [value?, hreach, decide_eq_false hm, decide_eq_false hne]
    split
    · rfl
    · split
      · rfl
      · next hle =>
        simp only [reach] at hle
        rw [magnitude_scale m (by omega)]

end Numeral

/-! ### Reading back -/

/-- A decimal denotes the number that its text reads as. -/
theorem Decimal.read?_write (d : Decimal) :
    Number.read? d.write = Numeral.value? ⟨false, d.digits, d.exponent⟩ := by
  rw [Number.read?]
  rcases Int.lt_or_le d.exponent 0 with hd | hd
  · rw [read?_write_of_neg hd]
    rfl
  · rw [read?_write_of_nonneg hd, Option.bind_some, Numeral.value?_scale, Int.toNat_of_nonneg hd]

theorem Decimal.read?_minus_write (d : Decimal) :
    Number.read? (0x2d :: d.write) =
      (Numeral.value? ⟨false, d.digits, d.exponent⟩).map fun x => -x := by
  obtain ⟨c, r, hwrite, hc, -⟩ := d.write_bytes
  rw [Number.read?, hwrite, Numeral.read?_minus hc, ← hwrite]
  rcases Int.lt_or_le d.exponent 0 with hd | hd
  · rw [read?_write_of_neg hd, ← Numeral.value?_negative]
    rfl
  · rw [read?_write_of_nonneg hd, Option.map_some, Option.bind_some, Numeral.value?_negative,
      Numeral.value?_scale, Int.toNat_of_nonneg hd]

namespace Shortest

theorem readsAs_of_search {x : Float} {value : Fraction} {place : Int} {n count : Nat} {d : Decimal}
    (h : search x value place n count = some d) : readsAs x d = true := by
  induction count generalizing n with
  | zero => cases h
  | succ count ih =>
    rw [search] at h
    split at h
    · next hfind =>
      obtain rfl := Option.some.inj h
      exact List.find?_some hfind
    · exact ih h

/-- The shortest decimal of a positive number denotes it. -/
theorem value?_ofFinite {x : Float} {m : Nat} {e : Int} {h : 0 < m}
    (hx : x.toModel.unpack = .finite .positive m e h) :
    Numeral.value? ⟨false, (ofFinite x m e).digits, (ofFinite x m e).exponent⟩ = some x := by
  rw [ofFinite]
  cases hsearch : search x (.ofBinary m e) (place (.ofBinary m e) (m.log2 + e)) 0 18 with
  | some d => exact of_decide_eq_true (readsAs_of_search hsearch)
  | none =>
    have hc := Number.canonical_of_unpack hx
    obtain ⟨hlow, hhigh⟩ := Numeral.reach_exact hc
    have hfinite : x.isFinite = true := by
      rw [Float.isFinite, Float.Model.isFinite, hx]
      rfl
    have hmagnitude := Numeral.magnitude_exact hc
    rw [← hx, Number.ofModel_pack_unpack] at hmagnitude
    refine Numeral.value?_of_magnitude ?_ hlow hhigh hmagnitude hfinite
    simp only [exact]
    split <;> exact Nat.mul_ne_zero (Nat.ne_of_gt h) (Nat.ne_of_gt (Nat.pow_pos (by decide)))

end Shortest

namespace Number

theorem unpack_neg {x : Float} {m : Nat} {e : Int} {h : 0 < m}
    (hx : x.toModel.unpack = .finite .negative m e h) :
    (-x).toModel.unpack = .finite .positive m e h := by
  change (Float.Model.pack x.toModel.unpack.neg).unpack = _
  rw [hx]
  exact unpack_pack .positive (canonical_of_unpack hx)

theorem neg_neg {x : Float} {m : Nat} {e : Int} {h : 0 < m}
    (hx : x.toModel.unpack = .finite .negative m e h) : -(-x) = x := by
  change Float.ofModel (.pack (-x).toModel.unpack.neg) = x
  rw [unpack_neg hx, ← ofModel_pack_unpack x, hx]
  rfl

/-- A finite number is read back from its text. -/
theorem read?_write {x : Float} (hx : x.isFinite = true) : read? (write x) = some x := by
  have hpack := ofModel_pack_unpack x
  rw [write]
  obtain ⟨s, hu⟩ | ⟨s, m, e, h, hu⟩ := unpack_of_isFinite hx
  · rw [← hpack, hu]
    cases s with
    | positive => decide +kernel
    | negative => decide +kernel
  · rw [hu]
    cases s with
    | positive => exact (Decimal.read?_write _).trans (Shortest.value?_ofFinite hu)
    | negative =>
      refine (Decimal.read?_minus_write _).trans ?_
      rw [Shortest.value?_ofFinite (unpack_neg hu), Option.map_some, neg_neg hu]

/-! ### The numbers that texts denote -/

theorem isFinite_neg {x : Float} (hx : x.isFinite = true) : (-x).isFinite = true := by
  rw [Float.isFinite, Float.Model.isFinite]
  change (Float.Model.pack x.toModel.unpack.neg).unpack.isFinite = true
  obtain ⟨s, hu⟩ | ⟨s, m, e, h, hu⟩ := unpack_of_isFinite hx
  · rw [hu]
    cases s <;> rfl
  · have hunpack := unpack_pack (-s) (canonical_of_unpack hu)
    rw [hu]
    exact (congrArg UnpackedFloat.isFinite hunpack).trans rfl

/-- Texts denote finite numbers only. -/
theorem isFinite_of_read? {s : Bytes} {x : Float} (h : read? s = some x) : x.isFinite = true := by
  obtain ⟨n, -, hvalue⟩ := Option.bind_eq_some_iff.mp h
  have hsigned : ∀ y : Float, y.isFinite = true →
      (if n.negative = true then -y else y).isFinite = true := by
    intro y hy
    split
    · exact isFinite_neg hy
    · exact hy
  simp only [Numeral.value?] at hvalue
  split at hvalue
  · obtain rfl := Option.some.inj hvalue
    exact hsigned 0 (by decide +kernel)
  · split at hvalue
    · cases hvalue
    · split at hvalue
      · next hfinite =>
        obtain rfl := Option.some.inj hvalue
        exact hsigned _ hfinite
      · cases hvalue

theorem numeral_unsigned {s : Bytes} {n : Numeral} (hs : s.head? ≠ some 0x2d)
    (h : Numeral.read? s = some n) : n.negative = false := by
  have hsign : (Numeral.takeSign s).1 = false := by
    rw [Numeral.takeSign.eq_def]
    split
    · exact absurd rfl hs
    · rfl
    · rfl
  simp only [Numeral.read?, hsign, Option.ite_none_left_eq_some] at h
  obtain ⟨-, h⟩ := h
  obtain ⟨e, -, rfl⟩ := Option.map_eq_some_iff.mp h
  rfl

/-- A text without a minus denotes a number with a plus. -/
theorem signOf_of_read? {s : Bytes} {x : Float} (hs : s.head? ≠ some 0x2d) (h : read? s = some x) :
    signOf x.toModel.unpack = .positive := by
  obtain ⟨n, hn, hvalue⟩ := Option.bind_eq_some_iff.mp h
  simp only [Numeral.value?, numeral_unsigned hs hn] at hvalue
  split at hvalue
  · obtain rfl := Option.some.inj hvalue
    rfl
  · split at hvalue
    · cases hvalue
    · split at hvalue
      · obtain rfl := Option.some.inj hvalue
        exact signOf_unpack_pack (signOf_ofScientific _ _)
      · cases hvalue

/-- The text of a finite number starts with a digit if its sign is a plus, and consists of digits,
a point and a minus. -/
theorem write_bytes {x : Float} (hx : x.isFinite = true) :
    ∃ c r, write x = c :: r ∧ (Byte.isDigit c = true ∨ c = 0x2d) ∧
      (signOf x.toModel.unpack = .positive → Byte.isDigit c = true) ∧
      ∀ b ∈ r, Byte.isDigit b = true ∨ b = 0x2e := by
  rw [write]
  obtain ⟨s, hu⟩ | ⟨s, m, e, h, hu⟩ := unpack_of_isFinite hx
  · rw [hu]
    cases s with
    | positive => exact ⟨0x30, [], rfl, .inl rfl, fun _ => rfl, by simp⟩
    | negative => exact ⟨0x2d, [0x30], rfl, .inr rfl, nofun,
        List.forall_mem_singleton.mpr (.inl rfl)⟩
  · rw [hu]
    cases s with
    | positive =>
      obtain ⟨c, r, hwrite, hc, hr⟩ := (Shortest.ofFinite x m e).write_bytes
      exact ⟨c, r, hwrite, .inl hc, fun _ => hc, hr⟩
    | negative =>
      obtain ⟨c, r, hwrite, hc, hr⟩ := (Shortest.ofFinite (-x) m e).write_bytes
      refine ⟨0x2d, c :: r, congrArg (0x2d :: ·) hwrite, .inr rfl, nofun, fun b hb => ?_⟩
      rcases List.mem_cons.mp hb with rfl | hb
      · exact .inl hc
      · exact hr b hb

/-! ### Line numbers -/

/-- A natural number is read from its digits as the number nearest to it. -/
theorem magnitude_eq_ofNat {n : Nat} (hn : n ≠ 0) : Numeral.magnitude n 0 = ofNat n := by
  suffices h : UnpackedFloat.ofScientific Format.binary64 n 0 =
      UnpackedFloat.ofInt Format.binary64 n from
    congrArg (fun u => Float.ofModel (.pack u)) h
  -- both readings round the same value, from forms of different lengths
  obtain ⟨t, ht⟩ : ∃ t, t = target n 0 := ⟨_, rfl⟩
  have hround : UnpackedFloat.ofInt Format.binary64 n =
      roundWithAccuracy Format.binary64 .positive (n * 2 ^ (0 - t).toNat) (0 - (0 - t).toNat)
        .exact := by
    have hgt : compare (n : Int) 0 = .gt := Int.compare_eq_gt.mpr (by omega)
    simp only [UnpackedFloat.ofInt, UnpackedFloat.normalize, hgt, UnpackedFloat.round,
      decreaseExponent, Int.toNat_natCast, Nat.shiftLeft_eq]
    rw [ht]
    rfl
  have hle : (0 - t).toNat ≤ 53 := by
    rw [ht, target_eq]
    omega
  have hshift := round_shift .positive (m := n * 2 ^ (0 - t).toNat) (e := 0 - (0 - t).toNat)
    (Nat.mul_ne_zero hn (by simp)) (by rw [target_mul_pow hn, ← ht]; omega) (53 - (0 - t).toNat)
  rw [Nat.mul_assoc, ← Nat.pow_add, Nat.add_sub_of_le hle,
    show (0 : Int) - (0 - t).toNat - (53 - (0 - t).toNat : Nat) = -53 by omega] at hshift
  have hscientific := Numeral.ofScientific_nonneg hn (k := 0) (by omega)
  rw [Nat.pow_zero, Nat.mul_one] at hscientific
  exact hscientific.trans (hshift.trans hround.symm)

theorem then_eq_eq {e e' : Int} {m m' : Nat}
    (h : (compare e e').then (compare m m') = .eq) : e = e' ∧ m = m' := by
  rw [Ordering.then_eq_eq] at h
  exact ⟨Std.LawfulEqOrd.eq_of_compare h.1, Std.LawfulEqOrd.eq_of_compare h.2⟩

/-- Forms that compare equal are the same, or zeros of either sign. -/
theorem eq_of_compare {a b : UnpackedFloat} (h : a.compare b = some .eq) :
    a = b ∨ ∃ s t, a = .zero s ∧ b = .zero t := by
  cases a with
  | notANumber => cases b <;> cases h
  | infinity s =>
    cases b with
    | infinity t => cases s <;> cases t <;> first | exact .inl rfl | cases h
    | notANumber => cases h
    | zero t => cases s <;> cases h
    | finite t m e hm => cases s <;> cases h
  | zero s =>
    cases b with
    | zero t => exact .inr ⟨s, t, rfl, rfl⟩
    | notANumber => cases h
    | infinity t => cases t <;> cases h
    | finite t m e hm => cases t <;> cases h
  | finite s m e hm =>
    cases b with
    | notANumber => cases h
    | zero t => cases s <;> cases h
    | infinity t => cases s <;> cases t <;> cases h
    | finite t m' e' hm' =>
      -- numbers are compared by sign first, then by exponent and mantissa
      cases s with
      | negative =>
        cases t with
        | negative =>
          have h := Option.some.inj h
          rw [Ordering.swap_eq_eq] at h
          obtain ⟨rfl, rfl⟩ := then_eq_eq h
          exact .inl rfl
        | positive => cases h
      | positive =>
        cases t with
        | negative => cases h
        | positive =>
          obtain ⟨rfl, rfl⟩ := then_eq_eq (Option.some.inj h)
          exact .inl rfl

theorem unpack_of_beq {x y : Float} (h : (x == y) = true) :
    x.toModel.unpack = y.toModel.unpack ∨
      ∃ s t, x.toModel.unpack = .zero s ∧ y.toModel.unpack = .zero t :=
  eq_of_compare (beq_iff_eq.mp h)

/-- Numbers that compare equal have the same integer part. -/
theorem floor?_eq_of_beq {x y : Float} (h : (x == y) = true) : floor? x = floor? y := by
  rcases unpack_of_beq h with hxy | ⟨s, t, hx, hy⟩
  · rw [floor?, floor?, hxy]
  · rw [floor?, floor?, hx, hy]

theorem compare_self_finite (e : Int) (m : Nat) : (compare e e).then (compare m m) = .eq := by
  rw [Ordering.then_eq_eq]
  exact ⟨Std.ReflOrd.compare_self, Std.ReflOrd.compare_self⟩

/-- A finite number compares equal to itself. -/
theorem beq_self {x : Float} (hx : x.isFinite = true) : (x == x) = true := by
  change (x.toModel.unpack.compare x.toModel.unpack == some .eq) = true
  rw [beq_iff_eq]
  obtain ⟨s, hu⟩ | ⟨s, m, e, h, hu⟩ := unpack_of_isFinite hx
  · rw [hu]
    rfl
  · rw [hu]
    cases s with
    | negative =>
      exact congrArg (fun o : Ordering => some o.swap) (compare_self_finite e m)
    | positive => exact congrArg some (compare_self_finite e m)

theorem isFinite_of_floor? {x : Float} {i : Int} (h : floor? x = some i) : x.isFinite = true := by
  rw [Float.isFinite, Float.Model.isFinite]
  rw [floor?] at h
  cases hx : x.toModel.unpack with
  | notANumber => rw [hx] at h; cases h
  | infinity s => rw [hx] at h; cases h
  | zero s => rfl
  | finite s m e hm => rfl

theorem natural?_eq_some {x : Float} {n : Nat} (h : natural? x = some n) :
    floor? x = some (n : Int) ∧ (ofNat n == x) = true := by
  rw [natural?] at h
  split at h
  · next i hi =>
    split at h
    · next hcond =>
      rw [Bool.and_eq_true, decide_eq_true_iff] at hcond
      obtain rfl := Option.some.inj h
      have hnat : (i.toNat : Int) = i := Int.toNat_of_nonneg hcond.1
      rw [ofNat, hnat]
      exact ⟨hi, hcond.2⟩
    · cases h
  · cases h

theorem lineNumber_eq_ok {x : Float} {n : Nat} (h : lineNumber x = .ok n) :
    natural? x = some n ∧ n ≤ maxLine := by
  rw [lineNumber] at h
  split at h
  · next k hk =>
    split at h
    · next hle =>
      cases h
      exact ⟨hk, hle⟩
    · cases h
  · cases h

/-- The digits of a line number are read as the number nearest to it. -/
theorem read?_decimal {n : Nat} (hmax : n ≤ maxLine) (hfinite : (ofNat n).isFinite = true) :
    read? (Bytes.decimal n) = some (ofNat n) := by
  have hread : read? (Bytes.decimal n) = Numeral.value? ⟨false, n, 0⟩ := by
    rw [read?, Numeral.read?_digits (Bytes.decimal_ne_nil n)
      (fun c hc => Bytes.isDigit_of_mem_decimal hc), Bytes.natural_decimal]
    rfl
  by_cases hn : n = 0
  · subst hn
    rw [hread]
    decide +kernel
  · have hlength : (Bytes.decimal n).length ≤ 310 := by
      have hpow := Bytes.ten_pow_length_le hn
      have hlt : 10 ^ (Bytes.decimal n).length < 10 ^ 20 := by
        rw [maxLine] at hmax
        omega
      have := (Nat.pow_lt_pow_iff_right (by decide)).mp hlt
      omega
    rw [hread]
    exact Numeral.value?_of_magnitude hn (by simp only [Numeral.reach]; omega)
      (by simp only [Numeral.reach]; omega) (magnitude_eq_ofNat hn) hfinite

/-- A line number is read back from its digits. -/
theorem lineNumber_read?_decimal {x : Float} {n : Nat} (h : lineNumber x = .ok n) :
    ∃ y, read? (Bytes.decimal n) = some y ∧ lineNumber y = .ok n := by
  obtain ⟨hnatural, hmax⟩ := lineNumber_eq_ok h
  obtain ⟨hfloor, hbeq⟩ := natural?_eq_some hnatural
  -- the number nearest to `n` may not be `n`, but it was for the number that was read
  have hfloor' : floor? (ofNat n) = some (n : Int) := by rw [floor?_eq_of_beq hbeq, hfloor]
  have hfinite := isFinite_of_floor? hfloor'
  refine ⟨ofNat n, read?_decimal hmax hfinite, ?_⟩
  have hself : (ofInt n == ofNat n) = true := beq_self hfinite
  rw [lineNumber, natural?, hfloor']
  simp [hself, hmax]

end Number

end LineBasic
