import LineBasic.Text.Space

/-!
# Trimmed texts

Trimming removes encodings of white space from both ends of a text until none stands there. What is
left has none at either end, so that trimming it again, or with a space behind it, gives it back.

## Main definitions

* `Space.Starts` — whether a text starts with an entry of a table

## Main results

* `Bytes.trim_eq_self_iff` — the texts that trimming keeps
* `Bytes.trim_trim` — trimming once is enough
* `Bytes.trim_append_space` — a space behind a text is trimmed away
-/

namespace LineBasic

namespace Space

/-- Whether a text starts with an entry of a table. -/
def Starts (table : List Bytes) (s : Bytes) : Prop :=
  ∃ e ∈ table, e <+: s

theorem Starts.mono {table : List Bytes} {s t : Bytes} (h : Starts table s) (hst : s <+: t) :
    Starts table t := by
  obtain ⟨e, he, hs⟩ := h
  exact ⟨e, he, hs.trans hst⟩

theorem of_find? {table : List Bytes} {s e : Bytes}
    (h : table.find? (·.isPrefixOf s) = some e) : e ∈ table ∧ e <+: s :=
  ⟨List.mem_of_find?_eq_some h, List.isPrefixOf_iff_prefix.mp (by simpa using List.find?_some h)⟩

/-- A table whose entries are not empty. -/
def Proper (table : List Bytes) : Prop :=
  ∀ e ∈ table, e ≠ []

theorem proper_encodings : Proper encodings := by
  unfold Proper
  decide

theorem proper_reversedEncodings : Proper reversedEncodings := by
  unfold Proper
  decide

theorem mem_encodings {b : UInt8} (hb : Byte.isBlank b = true ∨ Byte.isLineEnd b = true) :
    [b] ∈ encodings := by
  simp only [Byte.isBlank, Byte.isLineEnd, Bool.or_eq_true, beq_iff_eq] at hb
  rcases hb with (rfl | rfl) | (rfl | rfl) <;> decide

section Table

variable {table : List Bytes} (htable : Proper table)
include htable

theorem width_eq_zero_iff {s : Bytes} : width table s = 0 ↔ ¬Starts table s := by
  rw [width]
  split
  · next e he =>
    obtain ⟨hmem, hprefix⟩ := of_find? he
    have hpos := List.length_pos_iff.mpr (htable e hmem)
    exact ⟨fun h => by omega, fun h => absurd ⟨e, hmem, hprefix⟩ h⟩
  · next hnone =>
    refine ⟨fun _ ⟨e, hmem, hprefix⟩ => ?_, fun _ => rfl⟩
    exact List.find?_eq_none.mp hnone e hmem (List.isPrefixOf_iff_prefix.mpr hprefix)

theorem not_starts_nil : ¬Starts table [] := by
  rintro ⟨e, hmem, hprefix⟩
  exact htable e hmem (List.prefix_nil.mp hprefix)

theorem dropLeading_of_not_starts {s : Bytes} (hs : ¬Starts table s) :
    dropLeading table 0 s = s := by
  cases s with
  | nil => rw [dropLeading]
  | cons c s => rw [dropLeading, (width_eq_zero_iff htable).mpr hs]

/-- What is left does not start with an entry any more. -/
theorem not_starts_dropLeading (n : Nat) (s : Bytes) : ¬Starts table (dropLeading table n s) := by
  induction s generalizing n with
  | nil =>
    rw [dropLeading]
    exact not_starts_nil htable
  | cons c s ih =>
    cases n with
    | succ n => exact ih n
    | zero =>
      rw [dropLeading]
      split
      · next hwidth => exact (width_eq_zero_iff htable).mp hwidth
      · exact ih _

end Table

theorem dropLeading_suffix (table : List Bytes) (n : Nat) (s : Bytes) :
    dropLeading table n s <:+ s := by
  induction s generalizing n with
  | nil => simp [dropLeading]
  | cons c s ih =>
    cases n with
    | succ n => exact (ih n).trans (List.suffix_cons c s)
    | zero =>
      rw [dropLeading]
      split
      · exact List.suffix_rfl
      · exact (ih _).trans (List.suffix_cons c s)

end Space

namespace Bytes

open Space

theorem drop_length_takeWhile (p : UInt8 → Bool) (s : Bytes) :
    s.drop (s.takeWhile p).length = s.dropWhile p := by
  have h : (s.takeWhile p ++ s.dropWhile p).drop (s.takeWhile p).length = s.dropWhile p :=
    List.drop_left
  rwa [List.takeWhile_append_dropWhile] at h

theorem trimStart_suffix (s : Bytes) : trimStart s <:+ s :=
  dropLeading_suffix encodings 0 s

theorem prefix_trimEnd (s : Bytes) : trimEnd s <+: s :=
  List.reverse_suffix.mp (by
    rw [trimEnd, List.reverse_reverse]
    exact dropLeading_suffix reversedEncodings 0 s.reverse)

/-- The texts that trimming keeps are those with no white space at either end. -/
theorem trim_eq_self_iff {s : Bytes} :
    trim s = s ↔ ¬Starts encodings s ∧ ¬Starts reversedEncodings s.reverse := by
  constructor
  · intro h
    have hsuffix := trimStart_suffix s
    have hprefix := prefix_trimEnd (trimStart s)
    rw [← trim, h] at hprefix
    -- neither end loses anything, since nothing is lost in all
    have hstart : trimStart s = s :=
      hsuffix.eq_of_length (Nat.le_antisymm hsuffix.length_le hprefix.length_le)
    rw [trim, hstart] at h
    refine ⟨?_, ?_⟩
    · rw [← hstart]
      exact not_starts_dropLeading proper_encodings 0 s
    · rw [← h, trimEnd, List.reverse_reverse]
      exact not_starts_dropLeading proper_reversedEncodings 0 s.reverse
  · rintro ⟨hstart, hend⟩
    rw [trim, trimStart, dropLeading_of_not_starts proper_encodings hstart, trimEnd,
      dropLeading_of_not_starts proper_reversedEncodings hend, List.reverse_reverse]

theorem isBlank_head_of_trim {c : UInt8} {s : Bytes} (h : trim (c :: s) = c :: s) :
    Byte.isBlank c = false := by
  rw [Bool.eq_false_iff]
  intro hc
  exact (trim_eq_self_iff.mp h).1 ⟨[c], mem_encodings (.inl hc), List.prefix_append [c] s⟩

/-- Trimming once is enough. -/
theorem trim_trim (s : Bytes) : trim (trim s) = trim s := by
  refine trim_eq_self_iff.mpr ⟨fun h => ?_, ?_⟩
  · exact not_starts_dropLeading proper_encodings 0 s (h.mono (prefix_trimEnd (trimStart s)))
  · rw [trim, trimEnd, List.reverse_reverse]
    exact not_starts_dropLeading proper_reversedEncodings 0 _

theorem trim_infix (s : Bytes) : trim s <:+: s :=
  (prefix_trimEnd (trimStart s)).isInfix.trans (trimStart_suffix s).isInfix

/-- Only the space itself is white space that ends in a space. -/
theorem eq_space_of_mem_encodings {e : Bytes} (he : e ∈ encodings)
    (hlast : e.getLast? = some 0x20) : e = [0x20] := by
  revert e
  decide

/-- A space behind a text is trimmed away. -/
theorem trim_append_space {s : Bytes} (hs : trim s = s) : trim (s ++ [0x20]) = s := by
  by_cases hne : s = []
  · subst hne
    rfl
  · obtain ⟨hstart, hend⟩ := trim_eq_self_iff.mp hs
    have hstart' : ¬Starts encodings (s ++ [0x20]) := by
      rintro ⟨e, hmem, hprefix⟩
      rcases List.prefix_concat_iff.mp hprefix with rfl | hprefix
      · have := eq_space_of_mem_encodings hmem (by simp)
        simp [hne] at this
      · exact hstart ⟨e, hmem, hprefix⟩
    have hwidth : width reversedEncodings (0x20 :: s.reverse) = 1 := rfl
    rw [trim, trimStart, dropLeading_of_not_starts proper_encodings hstart', trimEnd,
      List.reverse_append, List.reverse_singleton, List.singleton_append, dropLeading, hwidth]
    change (dropLeading reversedEncodings 0 s.reverse).reverse = s
    rw [dropLeading_of_not_starts proper_reversedEncodings hend, List.reverse_reverse]

/-- No white space starts or ends with a byte that numbers are written with. -/
theorem mem_encodings_bytes {e : Bytes} (he : e ∈ encodings) {c : UInt8}
    (hc : Byte.isDigit c = true ∨ c = 0x2e ∨ c = 0x2d) :
    e.head? ≠ some c ∧ e.getLast? ≠ some c := by
  have hall : (encodings.all fun e => (e.head?.toList ++ e.getLast?.toList).all fun b =>
      !Byte.isDigit b && b != 0x2e && b != 0x2d) = true := by decide +kernel
  simp only [List.all_eq_true, Bool.and_eq_true, Bool.not_eq_true', bne_iff_ne, and_assoc] at hall
  have hno : ∀ b ∈ e.head?.toList ++ e.getLast?.toList, b ≠ c := by
    rintro b hb rfl
    obtain ⟨h1, h2, h3⟩ := hall e he b hb
    rcases hc with hc | hc | hc
    · rw [h1] at hc; cases hc
    · exact h2 hc
    · exact h3 hc
  constructor
  · intro h
    exact hno c (by simp [h]) rfl
  · intro h
    exact hno c (by simp [h]) rfl

/-- Texts of such bytes are kept by trimming. -/
theorem trim_of_number_bytes {s : Bytes}
    (hs : ∀ c ∈ s, Byte.isDigit c = true ∨ c = 0x2e ∨ c = 0x2d) : trim s = s := by
  refine trim_eq_self_iff.mpr ⟨?_, ?_⟩
  · rintro ⟨e, hmem, t, rfl⟩
    obtain ⟨c, r, rfl⟩ := List.exists_cons_of_ne_nil (proper_encodings e hmem)
    exact (mem_encodings_bytes hmem (hs c (by simp))).1 rfl
  · rintro ⟨e, hmem, t, ht⟩
    obtain ⟨e', hmem', rfl⟩ := List.mem_map.mp hmem
    obtain ⟨c, hc⟩ : ∃ c, e'.getLast? = some c :=
      ⟨_, List.getLast?_eq_some_getLast (proper_encodings e' hmem')⟩
    have hlast : c ∈ s := by
      rw [← List.mem_reverse, ← ht]
      simp [List.mem_of_getLast? hc]
    exact (mem_encodings_bytes hmem' (hs c hlast)).2 hc

end Bytes

end LineBasic
