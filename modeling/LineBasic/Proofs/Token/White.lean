import LineBasic.Proofs.Token.Name

/-!
# White space in a line

Only blanks may stand between the tokens of a line. Other white space is dropped where a text is
split into its fields, and a text of letters and white space cannot be read as a line if some of the
white space is no blank, unless a word such as `REM` is spelt in it, which takes what follows as it
stands.

## Main definitions

* `Space.isByte` — the bytes of white space

## Main results

* `Space.filter_flatten_fieldsFrom`, `Space.of_mem_flatten_fieldsFrom` — what fields hold of a text
* `Lexer.isLetter_of_scans` — which texts of letters and white space can be read
-/

namespace LineBasic

namespace Space

/-! ### Fields -/

/-- Whether a byte is part of some white space. -/
def isByte (b : UInt8) : Bool :=
  encodings.any (b ∈ ·)

theorem isByte_iff {b : UInt8} : isByte b = true ↔ ∃ e ∈ encodings, b ∈ e := by
  simp [isByte]

/-- The bytes of white space stand for nothing in a line. -/
theorem isByte_bytes {b : UInt8} (hb : isByte b = true) :
    Byte.isLetter b = false ∧ Byte.isDigit b = false ∧ b ≠ Byte.quote ∧ b ≠ Byte.dollar ∧
      Lexer.isNumberByte b = false ∧ Lexer.mark? b = none := by
  have hall : (encodings.all fun e => e.all fun b => !Byte.isLetter b && !Byte.isDigit b &&
      b != Byte.quote && b != Byte.dollar && !Lexer.isNumberByte b && (Lexer.mark? b).isNone) =
      true := by decide +kernel
  simp only [List.all_eq_true, Bool.and_eq_true, Bool.not_eq_true', bne_iff_ne,
    Option.isNone_iff_eq_none, and_assoc] at hall
  obtain ⟨e, he, hmem⟩ := isByte_iff.mp hb
  exact hall e he b hmem

theorem exists_of_width {table : List Bytes} {s : Bytes} {k : Nat} (h : width table s = k + 1) :
    ∃ e ∈ table, e.length = k + 1 ∧ e <+: s := by
  rw [width] at h
  split at h
  · next e he =>
    obtain ⟨hmem, hstarts⟩ := of_find? he
    exact ⟨e, hmem, h, hstarts⟩
  · cases h

/-- Fields keep all bytes that are not part of white space. -/
theorem filter_flatten_fieldsFrom {p : UInt8 → Bool} (hp : ∀ b, isByte b = true → p b = false)
    (n : Nat) (field s : Bytes) :
    (fieldsFrom n field s).flatten.filter p = field.reverse.filter p ++ (s.drop n).filter p := by
  induction s generalizing n field with
  | nil =>
    rw [fieldsFrom]
    split
    · next hempty =>
      rw [List.isEmpty_iff.mp hempty, List.drop_nil]
      rfl
    · rw [List.flatten_singleton, List.drop_nil, List.filter_nil, List.append_nil]
  | cons c s ih =>
    cases n with
    | succ n => exact ih n field
    | zero =>
      rw [fieldsFrom]
      split
      · rw [ih, List.reverse_cons, List.drop_zero, List.drop_zero, ← List.filter_append,
          ← List.filter_append, List.append_assoc]
        rfl
      · next k hwidth =>
        obtain ⟨e, he, hlength, rest, hs⟩ := exists_of_width hwidth
        have hrest : s.drop k = rest := by
          calc s.drop k = (c :: s).drop (k + 1) := rfl
            _ = rest := by rw [← hs, ← hlength, List.drop_left]
        have hspace : e.filter p = [] := by
          refine List.filter_eq_nil_iff.mpr fun b hb => ?_
          rw [hp b (isByte_iff.mpr ⟨e, he, hb⟩)]
          decide
        rw [List.drop_zero, ← hs, List.filter_append, hspace, List.nil_append, ← hrest]
        split
        · next hempty =>
          rw [ih, List.isEmpty_iff.mp hempty]
        · rw [List.flatten_cons, List.filter_append, ih, List.reverse_nil, List.filter_nil,
            List.nil_append]

/-- Fields hold bytes of the text that are no white space by themselves. -/
theorem of_mem_flatten_fieldsFrom {b : UInt8} {n : Nat} {field s : Bytes}
    (h : b ∈ (fieldsFrom n field s).flatten) : b ∈ field ∨ b ∈ s ∧ [b] ∉ encodings := by
  induction s generalizing n field with
  | nil =>
    rw [fieldsFrom] at h
    split at h
    · cases h
    · exact .inl (by simpa using h)
  | cons c s ih =>
    have hmore {field : Bytes} (h : b ∈ field ∨ b ∈ s ∧ [b] ∉ encodings) :
        b ∈ field ∨ b ∈ c :: s ∧ [b] ∉ encodings :=
      h.imp_right (.imp_left (List.mem_cons_of_mem c))
    cases n with
    | succ n => exact hmore (ih h)
    | zero =>
      rw [fieldsFrom] at h
      split at h
      · next hwidth =>
        rcases ih h with hfield | hs
        · rcases List.mem_cons.mp hfield with rfl | hfield
          · refine .inr ⟨List.mem_cons_self, fun hmem => ?_⟩
            exact (width_eq_zero_iff proper_encodings).mp hwidth ⟨_, hmem, s, rfl⟩
          · exact .inl hfield
        · exact hmore (.inr hs)
      · split at h
        · next hempty =>
          rcases hmore (ih h) with hnil | hs
          · cases hnil
          · exact .inr hs
        · rw [List.flatten_cons, List.mem_append, List.mem_reverse] at h
          rcases h with hfield | h
          · exact .inl hfield
          · rcases hmore (ih h) with hnil | hs
            · cases hnil
            · exact .inr hs

end Space

namespace Lexer

open Command (squeeze)

/-! ### Lines with other white space -/

theorem isSpace_upper (b : UInt8) : Space.isByte (Byte.upper b) = Space.isByte b := by
  refine upper_congr (fun x y hx hy => ?_) b
  have hletter {z : UInt8} (hz : Byte.isLetter z = true) : Space.isByte z = false := by
    by_contra h
    rw [(Space.isByte_bytes (by simpa using h)).1] at hz
    cases hz
  rw [hletter hx, hletter hy]

/-- A text of letters and white space cannot be read if it holds white space other than blanks,
unless a word, such as `REM`, is spelt in it. -/
theorem isLetter_of_scans {s : Bytes} {ts : List Token} (h : Scans s ts)
    (hbytes : ∀ b ∈ squeeze s, Byte.isLetter b = true ∨ Space.isByte b = true)
    (hwords : ∀ w : Word, ¬w.spelling <:+: (squeeze s).filter Byte.isLetter) :
    ∀ b ∈ squeeze s, Byte.isLetter b = true := by
  induction h with
  | nil => nofun
  | blank hc h ih =>
    rw [squeeze_blank hc] at hbytes hwords ⊢
    exact ih hbytes hwords
  | @token c s t n ts hc ht h ih =>
    have hsqueeze := squeeze_cons hc s
    have hhead := hbytes (Byte.upper c) (by rw [hsqueeze]; exact List.mem_cons_self)
    rw [isLetter_upper, isSpace_upper] at hhead
    -- a word would be spelt with letters only, and no such spelling occurs
    have hword {w : Word} {n : Nat} (hk : keyword? (c :: s) = some (w, n)) : False := by
      have hspelling : w.spelling.filter Byte.isLetter = w.spelling :=
        List.filter_eq_self.mpr fun b hb => (isSpelling_spelling w b hb).1
      refine hwords w ⟨[], (squeeze (s.drop n)).filter Byte.isLetter, ?_⟩
      rw [keyword?_eq_some hc hk, List.filter_append, hspelling, List.nil_append]
    cases ht with
    | keyword hk => exact (hword hk).elim
    | remark hk => exact (hword hk).elim
    | data hk => exact (hword hk).elim
    | symbol hk hletter =>
      have hrest := squeeze_nameTail s
      have hpart : squeeze (s.drop (nameTail s).2) <:+ squeeze (c :: s) := by
        rw [hsqueeze, hrest]
        exact (List.suffix_append _ _).trans (List.suffix_cons _ _)
      have hname (b : UInt8) (hb : b ∈ (nameTail s).1) : Byte.isLetter b = true := by
        have hmem : b ∈ squeeze (c :: s) := by
          rw [hsqueeze, hrest]
          exact List.mem_cons_of_mem _ (List.mem_append_left _ hb)
        refine (hbytes b hmem).resolve_right fun hspace => ?_
        obtain ⟨hnoLetter, hdigit, -, hdollar, -⟩ := Space.isByte_bytes hspace
        have hbyte := (isNameByte_of_mem_nameTail hb).resolve_right hdollar
        rw [isNameByte, hnoLetter, hdigit] at hbyte
        cases hbyte
      have hends := ih (fun b hb => hbytes b (hpart.subset hb))
        (fun w hw => hwords w (hw.trans (hpart.filter _).isInfix))
      rw [hsqueeze, hrest, List.forall_mem_cons, List.forall_mem_append, isLetter_upper]
      exact ⟨hletter, hname, hends⟩
    | number hnumber hx =>
      rcases hhead with hletter | hspace
      · rw [(isNumberByte_bytes hnumber).1] at hletter
        cases hletter
      · rw [(Space.isByte_bytes hspace).2.2.2.2.1] at hnumber
        cases hnumber
    | string hquote hs hinner =>
      subst hquote
      rcases hhead with hletter | hspace
      · cases hletter
      · exact absurd rfl (Space.isByte_bytes hspace).2.2.1
    | mark hm =>
      rcases hhead with hletter | hspace
      · rw [isLetter_of_isOther (isOther_of_mark? (by rw [hm]; rfl)).1] at hletter
        cases hletter
      · rw [(Space.isByte_bytes hspace).2.2.2.2.2] at hm
        cases hm

end Lexer

end LineBasic
