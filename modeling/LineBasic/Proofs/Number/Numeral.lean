import LineBasic.Number.Shortest
import Mathlib.Algebra.Group.Nat.Defs
import Mathlib.Data.List.TakeWhile

/-!
# Decimals as numerals

A decimal is written positionally. Its text is a numeral with the same digits, read with the power
of ten that its places after the point say; zeros in front of the digits do not count, and zeros
behind them are part of the integer.

## Main results

* `Bytes.natural_decimal` — the digits of a natural number denote it
* `Decimal.read?_write_of_nonneg`, `Decimal.read?_write_of_neg` — the numeral that the text of a
  decimal is
* `Decimal.write_bytes` — the text of a decimal starts with a digit and holds digits and a point
-/

namespace LineBasic

/-! ### Digits of natural numbers -/

namespace Byte

theorem isDigit_digit {d : Nat} (hd : d < 10) : isDigit (digit d) = true := by
  have h : ∀ d : Fin 10, isDigit (digit d) = true := by decide
  exact h ⟨d, hd⟩

theorem digitValue_digit {d : Nat} (hd : d < 10) : digitValue (digit d) = d := by
  have h : ∀ d : Fin 10, digitValue (digit d) = d := by decide
  exact h ⟨d, hd⟩

end Byte

namespace Bytes

theorem natural_append_singleton (s : Bytes) (c : UInt8) :
    natural (s ++ [c]) = 10 * natural s + Byte.digitValue c := by
  rw [natural, List.foldl_append]
  rfl

theorem natural_append_zeros (s : Bytes) (k : Nat) :
    natural (s ++ List.replicate k 0x30) = natural s * 10 ^ k := by
  induction k with
  | zero => simp
  | succ k ih =>
    rw [List.replicate_succ', ← List.append_assoc, natural_append_singleton, ih, Nat.pow_succ]
    change 10 * (natural s * 10 ^ k) + 0 = _
    rw [Nat.add_zero, ← Nat.mul_assoc, Nat.mul_comm 10, Nat.mul_right_comm, Nat.mul_assoc]

theorem natural_zeros_append (k : Nat) (s : Bytes) :
    natural (List.replicate k 0x30 ++ s) = natural s := by
  induction k with
  | zero => rfl
  | succ k ih => exact ih

theorem natural_decimal (n : Nat) : natural (decimal n) = n := by
  induction n using decimal.induct with
  | case1 n hn =>
    rw [decimal, if_pos hn]
    change 10 * 0 + Byte.digitValue (Byte.digit n) = n
    rw [Byte.digitValue_digit hn, Nat.mul_zero, Nat.zero_add]
  | case2 n hn ih =>
    rw [decimal, if_neg hn, natural_append_singleton, ih, Byte.digitValue_digit (by omega)]
    omega

theorem isDigit_of_mem_decimal {n : Nat} {c : UInt8} (hc : c ∈ decimal n) :
    Byte.isDigit c = true := by
  induction n using decimal.induct with
  | case1 n hn =>
    rw [decimal, if_pos hn] at hc
    rw [List.mem_singleton.mp hc, Byte.isDigit_digit hn]
  | case2 n hn ih =>
    rw [decimal, if_neg hn] at hc
    rcases List.mem_append.mp hc with hc | hc
    · exact ih hc
    · rw [List.mem_singleton.mp hc, Byte.isDigit_digit (by omega)]

theorem decimal_ne_nil (n : Nat) : decimal n ≠ [] := by
  rw [decimal]
  split <;> simp

theorem lt_ten_pow_length (n : Nat) : n < 10 ^ (decimal n).length := by
  induction n using decimal.induct with
  | case1 n hn => rw [decimal, if_pos hn]; simpa using hn
  | case2 n hn ih =>
    rw [decimal, if_neg hn, List.length_append, List.length_singleton, Nat.pow_succ]
    omega

theorem ten_pow_length_le {n : Nat} (hn : n ≠ 0) : 10 ^ (decimal n).length ≤ 10 * n := by
  induction n using decimal.induct with
  | case1 n hlt => rw [decimal, if_pos hlt]; simp; omega
  | case2 n hlt ih =>
    rw [decimal, if_neg hlt, List.length_append, List.length_singleton, Nat.pow_succ]
    have := ih (by omega)
    omega

/-- The number of digits is told by the powers of ten around a number. -/
theorem length_decimal_eq {n k : Nat} (hlow : 10 ^ k ≤ n) (hhigh : n < 10 ^ (k + 1)) :
    (decimal n).length = k + 1 := by
  have hn : n ≠ 0 := fun h => by
    have := Nat.pow_pos (n := k) (show 0 < 10 by decide)
    omega
  -- the powers of ten around the number and around its digits overlap
  have h1 := Nat.lt_of_le_of_lt (ten_pow_length_le hn)
    (show 10 * n < 10 ^ (k + 2) by rw [Nat.pow_succ]; omega)
  have h2 := Nat.lt_of_le_of_lt hlow (lt_ten_pow_length n)
  have h1 := (Nat.pow_lt_pow_iff_right (by decide)).mp h1
  have h2 := (Nat.pow_lt_pow_iff_right (by decide)).mp h2
  omega

theorem length_decimal_mul_pow {n : Nat} (hn : n ≠ 0) (k : Nat) :
    (decimal (n * 10 ^ k)).length = (decimal n).length + k := by
  obtain ⟨l, hl⟩ : ∃ l, (decimal n).length = l + 1 :=
    ⟨(decimal n).length - 1, by have := List.length_pos_iff.mpr (decimal_ne_nil n); omega⟩
  have hlow := ten_pow_length_le hn
  have hhigh := lt_ten_pow_length n
  rw [hl] at hlow hhigh ⊢
  rw [Nat.add_right_comm]
  apply length_decimal_eq
  · rw [Nat.pow_add]
    exact Nat.mul_le_mul_right _ (by rw [Nat.pow_succ] at hlow; omega)
  · rw [Nat.add_right_comm, Nat.pow_add]
    exact Nat.mul_lt_mul_of_pos_right hhigh (Nat.pow_pos (by decide))

end Bytes

/-! ### Numerals -/

namespace Numeral

theorem takeSign_of_digit {c : UInt8} (hc : Byte.isDigit c = true) (s : Bytes) :
    takeSign (c :: s) = (false, c :: s) := by
  rw [takeSign]
  · rintro s h
    cases h
    cases hc
  · rintro s h
    cases h
    cases hc

/-- A numeral after a minus. -/
theorem read?_minus {c : UInt8} (hc : Byte.isDigit c = true) (s : Bytes) :
    read? (0x2d :: c :: s) = (read? (c :: s)).map fun n => { n with negative := true } := by
  have hminus : takeSign (0x2d :: c :: s) = (true, c :: s) := rfl
  simp only [read?, hminus, takeSign_of_digit hc]
  split <;> split <;> simp [Function.comp_def]

/-- Digits by themselves. -/
theorem read?_digits {s : Bytes} (hne : s ≠ []) (hs : ∀ c ∈ s, Byte.isDigit c = true) :
    read? s = some ⟨false, Bytes.natural s, 0⟩ := by
  obtain ⟨c, r, rfl⟩ := List.exists_cons_of_ne_nil hne
  have htake : (c :: r).takeWhile Byte.isDigit = c :: r := List.takeWhile_eq_self_iff.mpr hs
  have hdrop : (c :: r).dropWhile Byte.isDigit = [] := List.dropWhile_eq_nil_iff.mpr hs
  rw [read?, takeSign_of_digit (hs c List.mem_cons_self)]
  simp only [htake, hdrop]
  simp [readExponent?]

/-- Digits with a point among them. -/
theorem read?_point {s t : Bytes} (hne : s ≠ []) (hs : ∀ c ∈ s, Byte.isDigit c = true)
    (ht : ∀ c ∈ t, Byte.isDigit c = true) :
    read? (s ++ 0x2e :: t) = some ⟨false, Bytes.natural (s ++ t), -t.length⟩ := by
  obtain ⟨c, r, rfl⟩ := List.exists_cons_of_ne_nil hne
  have hstop : ∀ u : Bytes, ((0x2e : UInt8) :: u).takeWhile Byte.isDigit = [] := fun _ => rfl
  have htake : (c :: (r ++ 0x2e :: t)).takeWhile Byte.isDigit = c :: r := by
    rw [← List.cons_append, List.takeWhile_append_of_pos hs, hstop, List.append_nil]
  have hdrop : (c :: (r ++ 0x2e :: t)).dropWhile Byte.isDigit = 0x2e :: t := by
    rw [← List.cons_append, List.dropWhile_append_of_pos hs]
    rfl
  have htake' : t.takeWhile Byte.isDigit = t := List.takeWhile_eq_self_iff.mpr ht
  have hdrop' : t.dropWhile Byte.isDigit = [] := List.dropWhile_eq_nil_iff.mpr ht
  rw [List.cons_append, read?, takeSign_of_digit (hs c List.mem_cons_self)]
  simp only [htake, hdrop, htake', hdrop']
  simp [readExponent?]

end Numeral

namespace Decimal

theorem write_of_nonneg {d : Decimal} (hd : 0 ≤ d.exponent) :
    d.write = Bytes.decimal d.digits ++ List.replicate d.exponent.toNat 0x30 := by
  rw [write, if_pos hd]

/-- A decimal with places after the point, as the digits on both sides of it. -/
theorem write_of_neg {d : Decimal} (hd : d.exponent < 0) :
    ∃ whole fraction : Bytes, d.write = whole ++ 0x2e :: fraction ∧ whole ≠ [] ∧
      (∀ c ∈ whole, Byte.isDigit c = true) ∧ (∀ c ∈ fraction, Byte.isDigit c = true) ∧
      Bytes.natural (whole ++ fraction) = d.digits ∧ d.exponent = -fraction.length := by
  rw [write, if_neg (by omega)]
  let places := (-d.exponent).toNat
  let digits := Bytes.decimal d.digits
  let padded := List.replicate (places + 1 - digits.length) 0x30 ++ digits
  have hlength : places < padded.length := by
    simp only [padded, List.length_append, List.length_replicate]
    omega
  have hdigits : ∀ c ∈ padded, Byte.isDigit c = true := by
    intro c hc
    rcases List.mem_append.mp hc with hc | hc
    · rw [List.eq_of_mem_replicate hc]
      rfl
    · exact Bytes.isDigit_of_mem_decimal hc
  refine ⟨padded.take (padded.length - places), padded.drop (padded.length - places), rfl, ?_,
    fun c hc => hdigits c (List.mem_of_mem_take hc),
    fun c hc => hdigits c (List.mem_of_mem_drop hc), ?_, ?_⟩
  · exact List.ne_nil_of_length_pos (by rw [List.length_take]; omega)
  · rw [List.take_append_drop, Bytes.natural_zeros_append, Bytes.natural_decimal]
  · rw [List.length_drop]
    omega

theorem read?_write_of_nonneg {d : Decimal} (hd : 0 ≤ d.exponent) :
    Numeral.read? d.write = some ⟨false, d.digits * 10 ^ d.exponent.toNat, 0⟩ := by
  have hdigits : ∀ c ∈ d.write, Byte.isDigit c = true := by
    intro c hc
    rw [write_of_nonneg hd] at hc
    rcases List.mem_append.mp hc with hc | hc
    · exact Bytes.isDigit_of_mem_decimal hc
    · rw [List.eq_of_mem_replicate hc]
      rfl
  rw [Numeral.read?_digits _ hdigits, write_of_nonneg hd, Bytes.natural_append_zeros,
    Bytes.natural_decimal]
  simp [write_of_nonneg hd, Bytes.decimal_ne_nil]

theorem read?_write_of_neg {d : Decimal} (hd : d.exponent < 0) :
    Numeral.read? d.write = some ⟨false, d.digits, d.exponent⟩ := by
  obtain ⟨whole, fraction, hwrite, hne, hwhole, hfraction, hdigits, hexponent⟩ := write_of_neg hd
  rw [hwrite, Numeral.read?_point hne hwhole hfraction, hdigits, ← hexponent]

/-- The text of a decimal starts with a digit, and consists of digits and a point. -/
theorem write_bytes (d : Decimal) :
    ∃ c r, d.write = c :: r ∧ Byte.isDigit c = true ∧
      ∀ b ∈ r, Byte.isDigit b = true ∨ b = 0x2e := by
  rcases Int.lt_or_le d.exponent 0 with hd | hd
  · obtain ⟨whole, fraction, hwrite, hne, hwhole, hfraction, -, -⟩ := write_of_neg hd
    obtain ⟨c, r, rfl⟩ := List.exists_cons_of_ne_nil hne
    refine ⟨c, r ++ 0x2e :: fraction, hwrite, hwhole c List.mem_cons_self, fun b hb => ?_⟩
    rcases List.mem_append.mp hb with hb | hb
    · exact .inl (hwhole b (List.mem_cons_of_mem _ hb))
    · rcases List.mem_cons.mp hb with rfl | hb
      · exact .inr rfl
      · exact .inl (hfraction b hb)
  · obtain ⟨c, r, hdecimal⟩ := List.exists_cons_of_ne_nil (Bytes.decimal_ne_nil d.digits)
    have hdigits : ∀ b ∈ c :: r, Byte.isDigit b = true :=
      fun b hb => Bytes.isDigit_of_mem_decimal (hdecimal ▸ hb)
    refine ⟨c, r ++ List.replicate d.exponent.toNat 0x30, by rw [write_of_nonneg hd, hdecimal]; rfl,
      hdigits c List.mem_cons_self, fun b hb => .inl ?_⟩
    rcases List.mem_append.mp hb with hb | hb
    · exact hdigits b (List.mem_cons_of_mem _ hb)
    · rw [List.eq_of_mem_replicate hb]
      rfl

end Decimal

end LineBasic
