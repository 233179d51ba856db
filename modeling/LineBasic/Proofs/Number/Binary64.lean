import LineBasic.Number.Integral
import Mathlib.Algebra.Group.Nat.Defs

/-!
# Numbers as binary fractions

A finite number other than zero is `±mantissa · 2 ^ exponent`, and of all the ways to write it so it
holds one: with a mantissa of 53 bits, or with the least exponent. Numbers and their unpacked forms
are in bijection, and rounding leaves a value alone that has such a form already.

## Main definitions

* `Number.Canonical` — the form in which a number holds a value

## Main results

* `Number.ofModel_pack_unpack`, `Number.unpack_pack` — packing and unpacking undo each other
* `Number.canonical_of_unpack` — numbers hold canonical forms
* `Number.unpack_of_isFinite` — finite numbers are zeros or have a mantissa
* `Number.round_shift` — rounding depends on the value and not on its form
* `Number.round_canonical` — a canonical form is not changed by rounding
* `Number.one_le_of_not_lt` — the integer part of a number that is not below 1
-/

namespace LineBasic.Number

open Float.Model Float.Model.UnpackedFloat

/-- The form in which numbers hold `mantissa · 2 ^ exponent`. -/
structure Canonical (mantissa : Nat) (exponent : Int) : Prop where
  pos : 0 < mantissa
  bits : mantissa < 2 ^ 53
  least : -1074 ≤ exponent
  most : exponent ≤ 971
  full : exponent = -1074 ∨ 2 ^ 52 ≤ mantissa

/-- The exponent that rounding aims at. -/
def target (mantissa : Nat) (exponent : Int) : Int :=
  Format.binary64.targetExponent (totalExponent mantissa exponent)

theorem targetExponent_eq (e : Int) : Format.binary64.targetExponent e = max (e - 53) (-1074) := rfl

theorem target_eq (mantissa : Nat) (exponent : Int) :
    target mantissa exponent = max (mantissa.log2 + 1 + exponent - 53) (-1074) :=
  targetExponent_eq _

theorem Canonical.log2_le {m : Nat} {e : Int} (h : Canonical m e) : m.log2 ≤ 52 := by
  have := (Nat.log2_lt (Nat.ne_of_gt h.pos)).mpr h.bits
  omega

theorem Canonical.target {m : Nat} {e : Int} (h : Canonical m e) : target m e = e := by
  have hlog := h.log2_le
  have hleast := h.least
  rw [target_eq]
  rcases h.full with he | hm
  · omega
  · have := (Nat.le_log2 (Nat.ne_of_gt h.pos)).mpr hm
    omega

/-! ### Packing -/

theorem unpackSign_packComponents (s : Sign) (e : BitVec 11) (m : BitVec 52) :
    unpackSign (packComponents Format.binary64 s e m) = s.toBitVec := by
  change (s.toBitVec ++ e ++ m).extractLsb' 63 1 = _
  rw [BitVec.extractLsb'_append_eq_of_le (by decide),
    BitVec.extractLsb'_append_eq_of_le (by decide)]
  exact BitVec.extractLsb'_eq_self

/-- A pattern of bits consists of its sign, its exponent and its mantissa. -/
theorem components_unpacked (b : BitVec Format.binary64.numBits) :
    packComponents _ (.ofBitVec (unpackSign b)) (unpackExponent b) (unpackMantissa b) = b := by
  change (Sign.ofBitVec (b.extractLsb' 63 1)).toBitVec ++ b.extractLsb' 52 11 ++
    b.extractLsb' 0 52 = b
  have hsign : ∀ s : BitVec 1, (Sign.ofBitVec s).toBitVec = s := by decide
  rw [hsign, BitVec.extractLsb'_append_extractLsb'_eq_extractLsb' (by decide)]
  exact (BitVec.extractLsb'_append_extractLsb'_eq_extractLsb' (by decide)).trans
    BitVec.extractLsb'_eq_self

/-- The mantissa of 53 bits that 52 stored bits stand for. -/
theorem toNat_implicit_append (m : BitVec 52) : (1#1 ++ m).toNat = 2 ^ 52 + m.toNat := by
  rw [BitVec.toNat_append, ← Nat.shiftLeft_add_eq_or_of_lt m.isLt]
  rfl

/-- Forms with the same mantissa and the same exponent are the same. -/
theorem finite_congr (s : Sign) {m m' : Nat} {e e' : Int} (h : 0 < m) (hm : m = m') (he : e = e') :
    UnpackedFloat.finite s m e h = .finite s m' e' (hm ▸ h) := by
  subst hm he
  rfl

/-- What is unpacked from a pattern, by its components. -/
theorem unpack_bits {b : BitVec Format.binary64.numBits} {s : Sign} {e : BitVec 11} {m : BitVec 52}
    (hs : .ofBitVec (unpackSign b) = s) (he : unpackExponent b = e) (hm : unpackMantissa b = m) :
    UnpackedFloat.unpack Format.binary64 b =
      if e = -1#11 then if m = 0#52 then .infinity s else .notANumber
      else if e = 0#11 then
        if h : m = 0#52 then .zero s
        else .finite s m.toNat ((e.toNat : Int) - ((1023 : Nat) + (52 : Nat)) + 1)
          (by simpa [BitVec.toNat_pos, BitVec.pos_iff_ne_zero])
      else .finite s (1#1 ++ m).toNat ((e.toNat : Int) - ((1023 : Nat) + (52 : Nat)))
        (by rw [toNat_implicit_append]; omega) := by
  subst hs he hm
  rfl

/-- What the unpacked form of a finite number looks like, and the bits it came from. -/
theorem unpack_finite {b : BitVec Format.binary64.numBits} {s : Sign} {m : Nat} {e : Int}
    {h : 0 < m} (hb : UnpackedFloat.unpack Format.binary64 b = .finite s m e h) :
    s = .ofBitVec (unpackSign b) ∧ unpackExponent b ≠ -1#_ ∧
      ((unpackExponent b = 0#_ ∧ m = (unpackMantissa b).toNat ∧ e = -1074) ∨
        (unpackExponent b ≠ 0#_ ∧ m = 2 ^ 52 + (unpackMantissa b).toNat ∧
          e = (unpackExponent b).toNat - 1075)) := by
  rw [unpack_bits rfl rfl rfl] at hb
  by_cases hexp : unpackExponent b = -1#11
  · by_cases hm : unpackMantissa b = 0#52
    · rw [if_pos hexp, if_pos hm] at hb
      cases hb
    · rw [if_pos hexp, if_neg hm] at hb
      cases hb
  · rw [if_neg hexp] at hb
    by_cases hzero : unpackExponent b = 0#11
    · rw [if_pos hzero] at hb
      by_cases hm : unpackMantissa b = 0#52
      · rw [dif_pos hm] at hb
        cases hb
      · rw [dif_neg hm] at hb
        cases hb
        exact ⟨rfl, hexp, .inl ⟨hzero, rfl, by rw [hzero]; rfl⟩⟩
    · rw [if_neg hzero] at hb
      cases hb
      exact ⟨rfl, hexp, .inr ⟨hzero, toNat_implicit_append _, rfl⟩⟩

theorem toNat_lt_of_ne_allOnes {e : BitVec 11} (h : e ≠ -1#11) : e.toNat < 2047 := by
  have hne : e.toNat ≠ 2047 := fun heq => h (BitVec.eq_of_toNat_eq heq)
  have := e.isLt
  omega

theorem toNat_ne_zero {e : BitVec 11} (h : e ≠ 0#11) : e.toNat ≠ 0 :=
  fun heq => h (BitVec.eq_of_toNat_eq heq)

theorem canonical_of_unpack_bits {b : BitVec Format.binary64.numBits} {s : Sign} {m : Nat} {e : Int}
    {h : 0 < m} (hb : UnpackedFloat.unpack Format.binary64 b = .finite s m e h) :
    Canonical m e := by
  have hm : (unpackMantissa b).toNat < 2 ^ 52 := (unpackMantissa b).isLt
  obtain ⟨-, hexp, ⟨-, rfl, rfl⟩ | ⟨hzero, rfl, rfl⟩⟩ := unpack_finite hb
  · exact ⟨h, by omega, by omega, by omega, .inl rfl⟩
  · have hmost := toNat_lt_of_ne_allOnes hexp
    have hleast := toNat_ne_zero hzero
    exact ⟨h, by omega, by omega, by omega, .inr (by omega)⟩

/-- Numbers hold canonical forms. -/
theorem canonical_of_unpack {x : Float.Model} {s : Sign} {m : Nat} {e : Int} {h : 0 < m}
    (hx : x.unpack = .finite s m e h) : Canonical m e :=
  canonical_of_unpack_bits hx

theorem log2_implicit {m : Nat} (hm : m < 2 ^ 52) : (2 ^ 52 + m).log2 = 52 :=
  (Nat.log2_eq_iff (by omega)).mpr ⟨by omega, by omega⟩

theorem pack_finite (s : Sign) (m : Nat) (e : Int) (h : 0 < m) :
    UnpackedFloat.pack Format.binary64 (.finite s m e h) =
      if 2048 ≤ (e + (1023 : Nat) + (52 : Nat)).toNat + 1 then packedInfinity _ s
      else if m.log2 + 1 = 53 then
        packComponents _ s (.ofNat 11 (e + (1023 : Nat) + (52 : Nat)).toNat) (.ofNat 52 m)
      else packComponents _ s 0#11 (.ofNat 52 m) := rfl

/-- A form with the least exponent and too few bits is packed without its exponent. -/
theorem pack_subnormal (s : Sign) {m : Nat} (h : 0 < m) (hm : m < 2 ^ 52) :
    UnpackedFloat.pack Format.binary64 (.finite s m (-1074) h) =
      packComponents _ s 0#11 (.ofNat 52 m) := by
  have hlog := (Nat.log2_lt (Nat.ne_of_gt h)).mpr hm
  rw [pack_finite, if_neg (by decide), if_neg (by omega)]

/-- A form with a mantissa of 53 bits is packed without the first of them. -/
theorem pack_normal (s : Sign) {m n : Nat} (h : 0 < 2 ^ 52 + m) (hm : m < 2 ^ 52) (hn : n < 2047) :
    UnpackedFloat.pack Format.binary64 (.finite s (2 ^ 52 + m) (n - 1075) h) =
      packComponents _ s (.ofNat 11 n) (.ofNat 52 m) := by
  have hbiased : ((n : Int) - 1075 + (1023 : Nat) + (52 : Nat)).toNat = n := by omega
  have hbits : BitVec.ofNat 52 (2 ^ 52 + m) = .ofNat 52 m := by
    apply BitVec.eq_of_toNat_eq
    rw [BitVec.toNat_ofNat, BitVec.toNat_ofNat, Nat.add_mod_left]
  rw [pack_finite, hbiased, log2_implicit hm, if_neg (by omega), if_pos rfl, hbits]

/-- What is unpacked from a pattern with given components. -/
theorem unpack_components (s : Sign) (e : BitVec 11) (m : BitVec 52) :
    UnpackedFloat.unpack Format.binary64 (packComponents _ s e m) =
      if e = -1#11 then if m = 0#52 then .infinity s else .notANumber
      else if e = 0#11 then
        if h : m = 0#52 then .zero s
        else .finite s m.toNat ((e.toNat : Int) - ((1023 : Nat) + (52 : Nat)) + 1)
          (by simpa [BitVec.toNat_pos, BitVec.pos_iff_ne_zero])
      else .finite s (1#1 ++ m).toNat ((e.toNat : Int) - ((1023 : Nat) + (52 : Nat)))
        (by rw [toNat_implicit_append]; omega) := by
  refine unpack_bits ?_ unpackExponent_packComponents unpackMantissa_packComponents
  rw [unpackSign_packComponents]
  cases s <;> rfl

/-- Packing undoes unpacking, on patterns of bits. -/
theorem pack_unpack_bits (b : BitVec Format.binary64.numBits) (hb : Format.binary64.Valid b) :
    UnpackedFloat.pack Format.binary64 (UnpackedFloat.unpack Format.binary64 b) = b := by
  have hcomponents := components_unpacked b
  have hm : (unpackMantissa b).toNat < 2 ^ 52 := (unpackMantissa b).isLt
  rw [← hcomponents, unpack_components]
  by_cases hones : unpackExponent b = -1#11
  · by_cases hzero : unpackMantissa b = 0#52
    · rw [if_pos hones, if_pos hzero, hones, hzero]
      rfl
    · -- of all patterns that are no number only one is valid
      rw [if_pos hones, if_neg hzero, hcomponents]
      exact (hb.eq_packedNaN hones hzero).symm
  · by_cases hexp : unpackExponent b = 0#11
    · by_cases hzero : unpackMantissa b = 0#52
      · rw [if_neg hones, if_pos hexp, dif_pos hzero, hexp, hzero]
        rfl
      · rw [if_neg hones, if_pos hexp, dif_neg hzero, hexp]
        exact (pack_subnormal _ _ hm).trans (by rw [BitVec.ofNat_toNat, BitVec.setWidth_eq])
    · have hnormal := pack_normal (.ofBitVec (unpackSign b)) (by omega) hm
        (toNat_lt_of_ne_allOnes hones)
      rw [BitVec.ofNat_toNat, BitVec.ofNat_toNat, BitVec.setWidth_eq, BitVec.setWidth_eq] at hnormal
      rw [if_neg hones, if_neg hexp]
      exact (congrArg _ (finite_congr _ _ (toNat_implicit_append _) rfl)).trans hnormal

theorem model_eq {x y : Float.Model} (h : x.toBits.toBitVec = y.toBits.toBitVec) : x = y := by
  obtain ⟨⟨bits⟩, valid⟩ := x
  obtain ⟨⟨bits'⟩, valid'⟩ := y
  cases h
  rfl

/-- Packing undoes unpacking. -/
theorem ofModel_pack_unpack (x : Float) : Float.ofModel (.pack x.toModel.unpack) = x := by
  obtain ⟨⟨bits, valid⟩⟩ := x
  exact congrArg Float.ofModel (model_eq (pack_unpack_bits _ valid))

theorem unpack_subnormal (s : Sign) {m : Nat} (h : 0 < m) (hm : m < 2 ^ 52) :
    UnpackedFloat.unpack Format.binary64 (packComponents _ s 0#11 (.ofNat 52 m)) =
      .finite s m (-1074) h := by
  have hbits : (BitVec.ofNat 52 m).toNat = m := by rw [BitVec.toNat_ofNat, Nat.mod_eq_of_lt hm]
  have hne : BitVec.ofNat 52 m ≠ 0#52 := fun heq => by
    rw [heq] at hbits
    exact Nat.ne_of_lt h hbits
  rw [unpack_components, if_neg (by decide), if_pos rfl, dif_neg hne]
  exact finite_congr s _ hbits rfl

theorem unpack_normal (s : Sign) {m n : Nat} (h : 0 < 2 ^ 52 + m) (hm : m < 2 ^ 52) (hpos : n ≠ 0)
    (hn : n < 2047) :
    UnpackedFloat.unpack Format.binary64 (packComponents _ s (.ofNat 11 n) (.ofNat 52 m)) =
      .finite s (2 ^ 52 + m) (n - 1075) h := by
  have hbits : (BitVec.ofNat 52 m).toNat = m := by rw [BitVec.toNat_ofNat, Nat.mod_eq_of_lt hm]
  have hexp : (BitVec.ofNat 11 n).toNat = n := by
    rw [BitVec.toNat_ofNat, Nat.mod_eq_of_lt (by omega)]
  have hzero : BitVec.ofNat 11 n ≠ 0#11 := fun heq => by
    rw [heq] at hexp
    exact hpos hexp.symm
  have hones : BitVec.ofNat 11 n ≠ -1#11 := fun heq => by
    rw [heq] at hexp
    exact Nat.ne_of_gt hn hexp
  rw [unpack_components, if_neg hones, if_neg hzero]
  refine finite_congr s _ ?_ ?_
  · rw [toNat_implicit_append, hbits]
  · omega

/-- Unpacking undoes packing of canonical forms. -/
theorem unpack_pack (s : Sign) {m : Nat} {e : Int} (hc : Canonical m e) :
    (Float.Model.pack (.finite s m e hc.pos)).unpack = .finite s m e hc.pos := by
  change UnpackedFloat.unpack _ (UnpackedFloat.pack _ _) = _
  by_cases hm : m < 2 ^ 52
  · obtain rfl : e = -1074 := hc.full.resolve_right (by omega)
    rw [pack_subnormal s hc.pos hm, unpack_subnormal s hc.pos hm]
  · have hbits := hc.bits
    have hleast := hc.least
    have hmost := hc.most
    obtain ⟨k, rfl⟩ : ∃ k, m = 2 ^ 52 + k := ⟨m - 2 ^ 52, by omega⟩
    obtain ⟨n, rfl⟩ : ∃ n : Nat, e = n - 1075 := ⟨(e + 1075).toNat, by omega⟩
    rw [pack_normal s hc.pos (by omega) (by omega),
      unpack_normal s hc.pos (by omega) (by omega) (by omega)]

/-- A finite number is a zero or has a mantissa. -/
theorem unpack_of_isFinite {x : Float} (hx : x.isFinite = true) :
    (∃ s, x.toModel.unpack = .zero s) ∨ ∃ s m e h, x.toModel.unpack = .finite s m e h := by
  rw [Float.isFinite, Float.Model.isFinite] at hx
  cases hu : x.toModel.unpack with
  | notANumber =>
    rw [hu] at hx
    cases hx
  | infinity s =>
    rw [hu] at hx
    cases hx
  | zero s => exact .inl ⟨s, rfl⟩
  | finite s m e h => exact .inr ⟨s, m, e, h, rfl⟩

/-! ### Signs -/

/-- The sign of a form; that of no number is a plus. -/
def signOf : UnpackedFloat → Sign
  | .infinity s => s
  | .notANumber => .positive
  | .zero s => s
  | .finite s .. => s

theorem pack_eq_components (u : UnpackedFloat) :
    ∃ e m, UnpackedFloat.pack Format.binary64 u = packComponents _ (signOf u) e m := by
  cases u with
  | infinity s => exact ⟨_, _, rfl⟩
  | notANumber => exact ⟨_, _, rfl⟩
  | zero s => exact ⟨_, _, rfl⟩
  | finite s m e h =>
    rw [pack_finite]
    change ∃ e m, _ = packComponents _ s e m
    split
    · exact ⟨_, _, rfl⟩
    · split <;> exact ⟨_, _, rfl⟩

/-- Packing keeps a plus. -/
theorem signOf_unpack_pack {u : UnpackedFloat} (hu : signOf u = .positive) :
    signOf (Float.Model.pack u).unpack = .positive := by
  obtain ⟨e, m, hpack⟩ := pack_eq_components u
  change signOf (UnpackedFloat.unpack _ (UnpackedFloat.pack _ u)) = _
  rw [hpack, hu, unpack_components]
  by_cases hones : e = -1#11
  · rw [if_pos hones]
    by_cases hzero : m = 0#52
    · rw [if_pos hzero]
      rfl
    · rw [if_neg hzero]
      rfl
  · rw [if_neg hones]
    by_cases hexp : e = 0#11
    · rw [if_pos hexp]
      by_cases hzero : m = 0#52
      · rw [dif_pos hzero]
        rfl
      · rw [dif_neg hzero]
        rfl
    · rw [if_neg hexp]
      rfl

/-- Rounding shifts twice, since the first time the mantissa may become one bit too long. -/
theorem round_shifts (s : Sign) {m : Nat} {e : Int} {a : Accuracy} {r r' : ExtendedMantissa × Int}
    (h : shiftToTargetExponent Format.binary64 m e a = r)
    (h' : shiftToTargetExponent Format.binary64 r.1.roundedMantissa r.2 .exact = r') :
    roundWithAccuracy Format.binary64 s m e a =
      if h : r'.1.mantissa = 0 then .zero s
      else .finite s r'.1.mantissa r'.2 (Nat.pos_of_ne_zero h) := by
  subst h h'
  rfl

theorem signOf_round (s : Sign) (m : Nat) (e : Int) (a : Accuracy) :
    signOf (roundWithAccuracy Format.binary64 s m e a) = s := by
  obtain ⟨r, hr⟩ : ∃ r, shiftToTargetExponent Format.binary64 m e a = r := ⟨_, rfl⟩
  obtain ⟨r', hr'⟩ : ∃ r',
      shiftToTargetExponent Format.binary64 r.1.roundedMantissa r.2 .exact = r' := ⟨_, rfl⟩
  rw [round_shifts s hr hr']
  by_cases hzero : r'.1.mantissa = 0
  · rw [dif_pos hzero]
    rfl
  · rw [dif_neg hzero]
    rfl

theorem signOf_ofScientific (m : Nat) (e : Int) :
    signOf (UnpackedFloat.ofScientific Format.binary64 m e) = .positive := by
  rw [UnpackedFloat.ofScientific]
  by_cases hm : m = 0
  · rw [dif_pos hm]
    rfl
  · rw [dif_neg hm]
    refine iteInduction (motive := fun u => signOf u = .positive) (fun _ => rfl) fun _ => ?_
    refine iteInduction (motive := fun u => signOf u = .positive) (fun _ => rfl) fun _ => ?_
    exact iteInduction (motive := fun u => signOf u = .positive) (fun _ => signOf_round ..)
      fun _ => signOf_round ..

/-! ### Rounding -/

theorem shift_succ (em : ExtendedMantissa) (k : Nat) :
    em >>> (k + 1) = (em >>> k).shiftRightOne := rfl

/-- Shifting out zeros leaves no trace of them. -/
theorem shift_mul_pow (m k : Nat) :
    (⟨m * 2 ^ k, false, false⟩ : ExtendedMantissa) >>> k = ⟨m, false, false⟩ := by
  induction k generalizing m with
  | zero => simp [HShiftRight.hShiftRight, Nat.repeat]
  | succ k ih =>
    have hm : m * 2 ^ (k + 1) = m * 2 * 2 ^ k := by rw [Nat.pow_succ, Nat.mul_assoc, Nat.mul_comm 2]
    rw [shift_succ, hm, ih]
    simp [ExtendedMantissa.shiftRightOne]

theorem shift_add (em : ExtendedMantissa) (a b : Nat) : em >>> (a + b) = (em >>> a) >>> b := by
  induction b with
  | zero => rfl
  | succ b ih => rw [← Nat.add_assoc, shift_succ, ih, shift_succ]

theorem log2_mul_pow {m : Nat} (hm : m ≠ 0) (k : Nat) : (m * 2 ^ k).log2 = m.log2 + k := by
  induction k with
  | zero => rw [Nat.pow_zero, Nat.mul_one, Nat.add_zero]
  | succ k ih =>
    have hpos := Nat.mul_ne_zero hm (Nat.ne_of_gt (Nat.two_pow_pos k))
    rw [Nat.pow_succ, ← Nat.mul_assoc, Nat.mul_comm _ 2, Nat.log2_two_mul hpos, ih, Nat.add_assoc]

theorem target_mul_pow {m : Nat} (hm : m ≠ 0) (e : Int) (k : Nat) :
    target (m * 2 ^ k) (e - k) = target m e := by
  rw [target_eq, target_eq, log2_mul_pow hm]
  congr 1
  omega

/-- What is shifted out of a longer form with the same value are zeros. -/
theorem shiftToTarget_mul_pow {m : Nat} (hm : m ≠ 0) {e : Int} (he : e ≤ target m e) (k : Nat) :
    shiftToTargetExponent Format.binary64 (m * 2 ^ k) (e - k) .exact =
      shiftToTargetExponent Format.binary64 m e .exact := by
  have htarget := target_mul_pow hm e k
  rw [target] at htarget
  rw [target] at htarget he
  -- the longer form is first shifted back, and then by as much as the shorter one
  have hamount : (Format.binary64.targetExponent (totalExponent m e) - (e - k)).toNat =
      k + (Format.binary64.targetExponent (totalExponent m e) - e).toNat := by omega
  simp only [shiftToTargetExponent, shiftToExponent, htarget, hamount,
    ExtendedMantissa.ofMantissaAndAccuracy, shift_add, shift_mul_pow]
  congr 1
  omega

/-- Of a canonical form nothing is shifted out. -/
theorem shiftToTarget_canonical {m : Nat} {e : Int} (hc : Canonical m e) :
    shiftToTargetExponent Format.binary64 m e .exact = (⟨m, false, false⟩, e) := by
  have htarget := hc.target
  rw [Number.target] at htarget
  simp [shiftToTargetExponent, shiftToExponent, htarget, HShiftRight.hShiftRight, Nat.repeat,
    ExtendedMantissa.ofMantissaAndAccuracy]

/-- Rounding depends on the value and not on its form, as long as no precision is missing. -/
theorem round_shift (s : Sign) {m : Nat} (hm : m ≠ 0) {e : Int} (he : e ≤ target m e) (k : Nat) :
    roundWithAccuracy Format.binary64 s (m * 2 ^ k) (e - k) .exact =
      roundWithAccuracy Format.binary64 s m e .exact :=
  (round_shifts s (shiftToTarget_mul_pow hm he k) rfl).trans (round_shifts s rfl rfl).symm

/-- A canonical form is not changed by rounding. -/
theorem round_canonical (s : Sign) {m : Nat} {e : Int} (hc : Canonical m e) :
    roundWithAccuracy Format.binary64 s m e .exact = .finite s m e hc.pos :=
  (round_shifts s (shiftToTarget_canonical hc) (shiftToTarget_canonical hc)).trans
    (dif_neg (Nat.ne_of_gt hc.pos))

/-- A value that has a canonical form is rounded to it from every finer form. -/
theorem round_exact (s : Sign) {m : Nat} {e : Int} (hc : Canonical m e) (k : Nat) :
    roundWithAccuracy Format.binary64 s (m * 2 ^ k) (e - k) .exact = .finite s m e hc.pos := by
  rw [round_shift s (Nat.ne_of_gt hc.pos) (Int.le_of_eq hc.target.symm), round_canonical s hc]

/-! ### Integer parts -/

theorem unpack_one : (1 : Float).toModel.unpack = .finite .positive (2 ^ 52) (-52) (by decide) := by
  rfl

/-- The integer part of a number that is not below 1 is positive. -/
theorem one_le_of_not_lt {x : Float} {i : Int} (h : floor? x = some i) (hx : ¬ x < 1) : 1 ≤ i := by
  have hlt : x.toModel.unpack.lt (1 : Float).toModel.unpack ≠ true := fun hlt =>
    hx (decide_eq_true hlt)
  rw [unpack_one] at hlt
  rw [floor?] at h
  split at h
  · cases h
  · cases h
  · next hzero =>
    rw [hzero] at hlt
    exact absurd rfl hlt
  · next sign m e hm hunpack =>
    have hcanonical := canonical_of_unpack hunpack
    rw [hunpack] at hlt
    cases sign with
    | negative => exact absurd rfl hlt
    | positive =>
      cases h
      have hcompare : (compare e (-52)).then (compare m (2 ^ 52)) ≠ .lt := by
        intro hcompare
        apply hlt
        change (some ((compare e (-52)).then (compare m (2 ^ 52))) == some .lt) = true
        rw [hcompare]
        rfl
      -- from 1 on, the exponent is so large that the mantissa has all its bits
      have he : -52 ≤ e := by
        refine Int.not_lt.mp fun he => hcompare ?_
        rw [Int.compare_eq_lt.mpr he]
        rfl
      have hmantissa : 2 ^ 52 ≤ m := by
        rcases hcanonical.full with hleast | hfull
        · omega
        · exact hfull
      dsimp only [Sign.apply]
      split
      · have hpos : 0 < m * 2 ^ e.toNat := Nat.mul_pos hm (Nat.two_pow_pos _)
        exact Int.ofNat_le.mpr hpos
      · have hpow : 2 ^ (-e).toNat ≤ 2 ^ 52 := Nat.pow_le_pow_right (by decide) (by omega)
        have hpos : 0 < m / 2 ^ (-e).toNat :=
          Nat.div_pos (Nat.le_trans hpow hmantissa) (Nat.two_pow_pos _)
        change 1 ≤ Int.fdiv (m : Int) ((2 ^ (-e).toNat : Nat) : Int)
        rw [← Int.ofNat_fdiv]
        exact Int.ofNat_le.mpr hpos

end LineBasic.Number
