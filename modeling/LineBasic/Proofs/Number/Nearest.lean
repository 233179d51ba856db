import LineBasic.Builtin
import LineBasic.Proofs.Number.Floor

/-!
# The nearest number

A natural number with more than 53 bits may have no number that stands for it. It is then rounded:
the bits behind the first 53 are shifted out, and two of them, one of which stands for all the
others, decide whether what is left is increased. The result stands for a natural number again, and
no other number is nearer.

## Main definitions

* `Number.ShiftedOut` — what is known of the bits that were shifted out
* `Number.Nearest` — the natural numbers that a natural number may be rounded to

## Main results

* `Number.exact_iff` — the natural numbers that numbers stand for
* `Number.exists_nearest` — a natural number is rounded to a nearest one
-/

namespace LineBasic.Number

open Float.Model Float.Model.UnpackedFloat

/-! ### Exact natural numbers -/

/-- A canonical form of an integer that is shifted to the left. -/
theorem Canonical.shiftLeft {m n k : Nat} {e : Int} (hc : Canonical m e) (hn : 0 < n)
    (hvalue : (m : ℚ) * 2 ^ e = n) (hmost : e + k ≤ 971) : Canonical m (e + k) := by
  have hleast := hc.least
  refine ⟨hc.pos, hc.bits, by omega, hmost, .inr (hc.full.resolve_left ?_)⟩
  rintro rfl
  have hbits : (m : ℚ) < 2 ^ 53 := by exact_mod_cast hc.bits
  have hone : (1 : ℚ) ≤ n := by exact_mod_cast hn
  have hpow : (0 : ℚ) < 2 ^ (-1074 : Int) := by positivity
  have hlt : (m : ℚ) * 2 ^ (-1074 : Int) < 2 ^ 53 * 2 ^ (-1074 : Int) := by gcongr
  have hsmall : (2 : ℚ) ^ 53 * 2 ^ (-1074 : Int) < 1 := by
    rw [← zpow_natCast, ← zpow_add₀ (by norm_num)]
    exact zpow_lt_one_of_neg₀ (by norm_num) (by norm_num)
  linarith

/-- The integers that numbers stand for are those of at most 53 bits, shifted to the left. -/
theorem exact_iff {n : Nat} (hmax : n < 2 ^ 64) :
    Exact n ↔ ∃ m k, m ≤ 2 ^ 53 ∧ n = m * 2 ^ k := by
  constructor
  · rintro (rfl | ⟨m, e, hc, hvalue⟩)
    · exact ⟨0, 0, by omega, rfl⟩
    · rcases le_or_gt 0 e with he | he
      · obtain ⟨k, rfl⟩ := Int.eq_ofNat_of_zero_le he
        refine ⟨m, k, hc.bits.le, ?_⟩
        rw [zpow_natCast] at hvalue
        exact_mod_cast hvalue.symm
      · refine ⟨n, 0, ?_, by simp⟩
        have hone : (2 : ℚ) ^ e ≤ 1 := zpow_le_one_of_nonpos₀ (by norm_num) he.le
        have hle : (n : ℚ) ≤ m := hvalue ▸ mul_le_of_le_one_right (Nat.cast_nonneg m) hone
        exact (show n ≤ m by exact_mod_cast hle).trans hc.bits.le
  · rintro ⟨m, k, hm, rfl⟩
    rcases Nat.eq_zero_or_pos m with rfl | hpos
    · exact .inl (Nat.zero_mul _)
    · obtain ⟨m', e, hc, hvalue⟩ := exists_canonical hpos hm
      -- the bound on the integer bounds the exponent, so the number is finite
      have hk : k < 64 := (Nat.pow_lt_pow_iff_right (by omega)).mp
        ((Nat.le_mul_of_pos_left _ hpos).trans_lt hmax)
      have he : e ≤ 53 := by
        refine (zpow_le_zpow_iff_right₀ (by norm_num : (1 : ℚ) < 2)).mp ?_
        have hone : (1 : ℚ) ≤ m' := by exact_mod_cast hc.pos
        calc (2 : ℚ) ^ e ≤ m' * 2 ^ e := le_mul_of_one_le_left (by positivity) hone
          _ = m := hvalue
          _ ≤ 2 ^ (53 : Int) := by exact_mod_cast hm
      refine .inr ⟨m', e + k, hc.shiftLeft hpos hvalue (by omega), ?_⟩
      rw [zpow_add₀ (by norm_num), ← mul_assoc, hvalue, zpow_natCast]
      push_cast
      rfl

/-! ### Shifting out -/

/-- What is known of a natural number `n` after `s` bits of it have been shifted out. -/
structure ShiftedOut (n s : Nat) (em : ExtendedMantissa) : Prop where
  mantissa : em.mantissa = n / 2 ^ s
  below : em.roundBit = false → 2 * (n % 2 ^ s) < 2 ^ s
  above : em.roundBit = true → 2 ^ s ≤ 2 * (n % 2 ^ s)
  halfway : em.stickyBit = false → n % 2 ^ s = 0 ∨ 2 * (n % 2 ^ s) = 2 ^ s

theorem shiftedOut (n s : Nat) : ShiftedOut n s ((⟨n, false, false⟩ : ExtendedMantissa) >>> s) := by
  induction s with
  | zero => exact ⟨(Nat.div_one n).symm, by omega, nofun, fun _ => .inl (Nat.mod_one n)⟩
  | succ s ih =>
    rw [shift_succ]
    obtain ⟨hmantissa, hbelow, habove, hhalfway⟩ := ih
    generalize (⟨n, false, false⟩ : ExtendedMantissa) >>> s = em at *
    have hmod : n % 2 ^ (s + 1) = n % 2 ^ s + 2 ^ s * (em.mantissa % 2) := by
      rw [Nat.mod_pow_succ, hmantissa]
    have hlt : n % 2 ^ s < 2 ^ s := Nat.mod_lt _ (Nat.two_pow_pos s)
    have hbit := Nat.mod_two_eq_zero_or_one em.mantissa
    constructor
    · rw [ExtendedMantissa.shiftRightOne, hmantissa, Nat.div_div_eq_div_mul, Nat.pow_succ]
    · intro h
      have hzero : em.mantissa % 2 = 0 := by simpa [ExtendedMantissa.shiftRightOne] using h
      rw [hmod, hzero, Nat.pow_succ]
      omega
    · intro h
      have hone : em.mantissa % 2 = 1 := by simpa [ExtendedMantissa.shiftRightOne] using h
      rw [hmod, hone, Nat.pow_succ]
      omega
    · intro h
      obtain ⟨hround, hsticky⟩ : em.roundBit = false ∧ em.stickyBit = false := by
        simpa [ExtendedMantissa.shiftRightOne] using h
      have hrest := hbelow hround
      rw [hmod, Nat.pow_succ]
      rcases hbit with hzero | hone
      · rw [hzero]
        rcases hhalfway hsticky with h' | h' <;> omega
      · rw [hone]
        rcases hhalfway hsticky with h' | h' <;> omega

/-- What is left is increased only if at least one half of a unit was shifted out, and left as it is
only if at most one half was. -/
theorem ShiftedOut.roundedMantissa {n s : Nat} {em : ExtendedMantissa} (h : ShiftedOut n s em) :
    em.roundedMantissa = n / 2 ^ s ∧ 2 * (n % 2 ^ s) ≤ 2 ^ s ∨
      em.roundedMantissa = n / 2 ^ s + 1 ∧ 2 ^ s ≤ 2 * (n % 2 ^ s) := by
  obtain ⟨hmantissa, hbelow, habove, hhalfway⟩ := h
  obtain ⟨m, round, sticky⟩ := em
  obtain rfl : m = n / 2 ^ s := hmantissa
  cases round with
  | false =>
    refine .inl ⟨?_, (hbelow rfl).le⟩
    cases sticky <;> rfl
  | true =>
    have hle := habove rfl
    cases sticky with
    | true => exact .inr ⟨rfl, hle⟩
    | false =>
      have hhalf : 2 * (n % 2 ^ s) = 2 ^ s := by
        rcases hhalfway rfl with hzero | hhalf
        · have := Nat.two_pow_pos s
          omega
        · exact hhalf
      have hrounded : (⟨n / 2 ^ s, true, false⟩ : ExtendedMantissa).roundedMantissa =
        n / 2 ^ s + n / 2 ^ s % 2 := rfl
      rw [hrounded]
      rcases Nat.mod_two_eq_zero_or_one (n / 2 ^ s) with heven | hodd
      · exact .inl ⟨by rw [heven, Nat.add_zero], hhalf.le⟩
      · exact .inr ⟨by rw [hodd], hhalf.ge⟩

/-! ### Nearest numbers -/

/-- Whether some number stands for `r` and no number that stands for a natural number is nearer to
`n`. -/
def Nearest (n r : Nat) : Prop :=
  Exact r ∧ ∀ k, Exact k → |(n : Int) - r| ≤ |(n : Int) - k|

theorem Nearest.eq_iff {n r : Nat} (h : Nearest n r) : r = n ↔ Exact n := by
  constructor
  · rintro rfl
    exact h.1
  · intro hn
    have hle := h.2 n hn
    rw [sub_self, abs_zero, abs_nonpos_iff] at hle
    omega

theorem nearest_self {n : Nat} (h : Exact n) : Nearest n n := by
  refine ⟨h, fun k _ => ?_⟩
  rw [sub_self, abs_zero]
  exact abs_nonneg _

/-- Rounding does not pass an exact number. -/
theorem Nearest.le {n r k : Nat} (h : Nearest n r) (hnk : n ≤ k) (hk : Exact k) : r ≤ k := by
  have hle := h.2 k hk
  rw [abs_of_nonpos (by omega : (n : Int) - k ≤ 0)] at hle
  have := neg_le_of_abs_le hle
  omega

/-! ### Rounding -/

/-- Of all multiples of a unit, the one that is rounded to is nearest. -/
theorem abs_sub_le_of_multiple {n unit a q : Nat} (hn : n = a * unit + n % unit)
    (hq : q = a ∧ 2 * (n % unit) ≤ unit ∨ q = a + 1 ∧ unit ≤ 2 * (n % unit)) (j : Nat)
    (hunit : 0 < unit) :
    |(n : Int) - (q * unit : Nat)| ≤ |(n : Int) - (j * unit : Nat)| := by
  have hlt := Nat.mod_lt n hunit
  generalize n % unit = rest at *
  subst hn
  rcases Nat.lt_or_ge a j with hj | hj
  · have hle : (a + 1) * unit ≤ j * unit := Nat.mul_le_mul_right _ hj
    rw [Nat.add_mul, Nat.one_mul] at hle
    rw [abs_of_nonpos (show ((a * unit + rest : Nat) : Int) - (j * unit : Nat) ≤ 0 by omega)]
    rcases hq with ⟨rfl, hrest⟩ | ⟨rfl, hrest⟩
    · rw [abs_of_nonneg (by omega)]
      omega
    · rw [Nat.add_mul, Nat.one_mul, abs_of_nonpos (by omega)]
      omega
  · have hle : j * unit ≤ a * unit := Nat.mul_le_mul_right _ hj
    rw [abs_of_nonneg (show 0 ≤ ((a * unit + rest : Nat) : Int) - (j * unit : Nat) by omega)]
    rcases hq with ⟨rfl, hrest⟩ | ⟨rfl, hrest⟩
    · rw [abs_of_nonneg (by omega)]
      omega
    · rw [Nat.add_mul, Nat.one_mul, abs_of_nonpos (by omega)]
      omega

/-- A number that stands for an integer of more than 53 bits is a multiple of the unit behind the
first 53 of its bits. -/
theorem Exact.multiple_or_lt {k : Nat} (hk : Exact k) (s : Nat) :
    (∃ j, k = j * 2 ^ s) ∨ k < 2 ^ (52 + s) := by
  rcases hk with rfl | ⟨m, e, hc, hvalue⟩
  · exact .inl ⟨0, (Nat.zero_mul _).symm⟩
  · rcases le_or_gt (s : Int) e with he | he
    · obtain ⟨d, hd⟩ := Int.eq_ofNat_of_zero_le (show 0 ≤ e - s by omega)
      obtain rfl : e = (d + s : Nat) := by omega
      refine .inl ⟨m * 2 ^ d, ?_⟩
      rw [zpow_natCast, pow_add, ← mul_assoc] at hvalue
      exact_mod_cast hvalue.symm
    · refine .inr ?_
      have hbits : (m : ℚ) < 2 ^ 53 := by exact_mod_cast hc.bits
      have hle : (2 : ℚ) ^ e ≤ 2 ^ ((s : Int) - 1) := zpow_le_zpow_right₀ (by norm_num) (by omega)
      have hlt : (k : ℚ) < 2 ^ (52 + s) := by
        calc (k : ℚ) = m * 2 ^ e := hvalue.symm
          _ < 2 ^ 53 * 2 ^ e := by gcongr
          _ ≤ 2 ^ 53 * 2 ^ ((s : Int) - 1) := by gcongr
          _ = 2 ^ (52 + s) := by
              rw [← zpow_natCast, ← zpow_natCast, ← zpow_add₀ (by norm_num)]
              congr 1
              push_cast
              ring
      exact_mod_cast hlt

/-- The multiple of its unit that a number with many bits is rounded to has a canonical form. -/
theorem exists_canonical_multiple {q s : Nat} (hlow : 2 ^ 52 ≤ q) (hhigh : q ≤ 2 ^ 53)
    (hs : s ≤ 970) : ∃ m k : Nat, Canonical m (s + k) ∧ q = m * 2 ^ k := by
  rcases Nat.lt_or_ge q (2 ^ 53) with hlt | hge
  · exact ⟨q, 0, ⟨by omega, hlt, by omega, by omega, .inr hlow⟩, (Nat.mul_one q).symm⟩
  · refine ⟨2 ^ 52, 1, ⟨by decide, by decide, by omega, by omega, .inr (Nat.le_refl _)⟩, ?_⟩
    omega

/-- A positive form is packed without a change. -/
theorem is_pack_finite {m n : Nat} {e : Int} (hc : Canonical m e) (hvalue : (m : ℚ) * 2 ^ e = n) :
    Is (Float.ofModel (.pack (.finite .positive m e hc.pos))) n := by
  refine is_pack ⟨?_, unpack_pack .positive hc⟩
  rw [valueOf?_finite, rational_positive, hvalue]
  rfl

/-- A natural number with more than 53 bits is rounded to the multiple of its unit that is left. -/
theorem is_ofNat_rounded {n s q : Nat} (hlog : n.log2 = 52 + s) (hs : s ≤ 970)
    (hq : ((⟨n, false, false⟩ : ExtendedMantissa) >>> s).roundedMantissa = q) :
    Is (ofNat n) (q * 2 ^ s : Nat) ∧ Exact (q * 2 ^ s) := by
  have hn : n ≠ 0 := by
    rintro rfl
    rw [Nat.log2_zero] at hlog
    omega
  have hpow := Nat.two_pow_pos s
  have hlow : 2 ^ 52 ≤ n / 2 ^ s := by
    rw [Nat.le_div_iff_mul_le hpow, ← Nat.pow_add, ← hlog]
    exact Nat.log2_self_le hn
  have hhigh : n / 2 ^ s < 2 ^ 53 := by
    rw [Nat.div_lt_iff_lt_mul hpow, ← Nat.pow_add, show 53 + s = n.log2 + 1 by omega]
    exact Nat.lt_log2_self
  have hrounded := (shiftedOut n s).roundedMantissa
  obtain ⟨m, k, hc, hm⟩ := exists_canonical_multiple (q := q) (by omega) (by omega) hs
  have hvalue : (m : ℚ) * 2 ^ ((s : Int) + k) = (q * 2 ^ s : Nat) := by
    rw [hm, zpow_add₀ (by norm_num), zpow_natCast, zpow_natCast]
    push_cast
    ring
  refine ⟨?_, .inr ⟨m, s + k, hc, hvalue⟩⟩
  have htarget : target n 0 = s := by
    rw [target_eq]
    omega
  have hfirst : shiftToTargetExponent Format.binary64 n 0 .exact =
      ((⟨n, false, false⟩ : ExtendedMantissa) >>> s, (s : Int)) := by
    rw [target] at htarget
    simp [shiftToTargetExponent, shiftToExponent, htarget, ExtendedMantissa.ofMantissaAndAccuracy]
  have hsecond : shiftToTargetExponent Format.binary64 q s .exact =
      (⟨m, false, false⟩, (s : Int) + k) := by
    have hshift := shiftToTarget_mul_pow (Nat.ne_of_gt hc.pos) hc.target.ge k
    rw [← hm, Int.add_sub_cancel, shiftToTarget_canonical hc] at hshift
    exact hshift
  have hround : UnpackedFloat.round Format.binary64 .positive n 0 =
      .finite .positive m (s + k) hc.pos := by
    rw [round_of_le_target _ (by omega), round_shifts .positive hfirst (hq ▸ hsecond),
      dif_neg (Nat.ne_of_gt hc.pos)]
  have hnumber : ofNat n = Float.ofModel (.pack (.finite .positive m (s + k) hc.pos)) := by
    have hgt : compare (n : Int) 0 = .gt := Int.compare_eq_gt.mpr (by omega)
    have hnormal : UnpackedFloat.ofInt Format.binary64 n =
        .finite .positive m (s + k) hc.pos := by
      rw [← hround]
      simp only [UnpackedFloat.ofInt, UnpackedFloat.normalize, hgt, Int.toNat_natCast]
    exact congrArg (fun u => Float.ofModel (.pack u)) hnormal
  rw [hnumber]
  exact is_pack_finite hc hvalue

/-- A natural number is rounded to a nearest one. -/
theorem exists_nearest {n : Nat} (hmax : n < 2 ^ 64) :
    ∃ r : Nat, Is (ofNat n) r ∧ Nearest n r := by
  rcases Nat.lt_or_ge n (2 ^ 53) with hsmall | hlarge
  · exact ⟨n, is_ofNat hsmall.le, nearest_self (exact_of_le hsmall.le)⟩
  · have hn : n ≠ 0 := by omega
    have hleast := (Nat.le_log2 hn).mpr hlarge
    have hmost := (Nat.log2_lt hn).mpr hmax
    obtain ⟨s, hlog⟩ := Nat.exists_eq_add_of_le (show 52 ≤ n.log2 by omega)
    obtain ⟨q, hq⟩ : ∃ q, ((⟨n, false, false⟩ : ExtendedMantissa) >>> s).roundedMantissa = q :=
      ⟨_, rfl⟩
    obtain ⟨his, hexact⟩ := is_ofNat_rounded hlog (by omega) hq
    have hrounded := (shiftedOut n s).roundedMantissa
    rw [hq] at hrounded
    have hdivided : n = n / 2 ^ s * 2 ^ s + n % 2 ^ s := by rw [Nat.mul_comm, Nat.div_add_mod]
    have hmultiple := fun j => abs_sub_le_of_multiple hdivided hrounded j (Nat.two_pow_pos s)
    refine ⟨q * 2 ^ s, his, hexact, fun k hk => ?_⟩
    rcases hk.multiple_or_lt s with ⟨j, rfl⟩ | hlt
    · exact hmultiple j
    · -- the least number with as many bits as `n` is a multiple, and in between
      have hbits : 2 ^ (52 + s) ≤ n := hlog ▸ Nat.log2_self_le hn
      refine (hmultiple (2 ^ 52)).trans ?_
      rw [← Nat.pow_add, abs_of_nonneg (by omega), abs_of_nonneg (by omega)]
      omega

/-! ### Line numbers -/

theorem beq_of_is {x y : Float} {i : Int} (hx : Is x i) (hy : Is y i) : (x == y) = true := by
  have hcompare := compare_unpack hx hy
  rw [compare_eq_iff_eq.mpr rfl] at hcompare
  change (x.toModel.unpack.compare y.toModel.unpack == some .eq) = true
  exact beq_iff_eq.mpr hcompare

/-- A number that stands for a natural number denotes the line of this number. -/
theorem lineNumber_of_is {x : Float} {r : Nat} (h : Is x r) (hexact : Exact r)
    (hmax : r ≤ maxLine) : lineNumber x = .ok r := by
  have hself : (ofInt r == x) = true := beq_of_is (is_ofInt_of_exact hexact) h
  rw [lineNumber, natural?, floor?_of_is h]
  simp [hself, hmax]

/-- The line of a natural number that is not too large is that of a nearest one. -/
theorem exists_lineNumber_ofNat {n : Nat} (hmax : n ≤ maxLine) :
    ∃ r, lineNumber (ofNat n) = .ok r ∧ Nearest n r := by
  obtain ⟨r, his, hnearest⟩ := exists_nearest (show n < 2 ^ 64 by rw [maxLine] at hmax; omega)
  have hlast : Exact maxLine := (exact_iff (by decide)).mpr ⟨1, 63, by decide, by decide⟩
  exact ⟨r, lineNumber_of_is his hnearest.1 (hnearest.le hmax hlast), hnearest⟩

end LineBasic.Number
