import LineBasic.Proofs.Token.ReadBack

/-!
# The bytes of listed tokens

A listed line can be told from the next one because it holds a newline only where the line that was
read held one, and it loses nothing at its end because it ends in a line end only if that line did.

## Main results

* `Lexer.newline_mem_of_listingAll` — newlines in listed tokens
* `Lexer.getLast?_of_listingAll` — line ends behind listed tokens
-/

namespace LineBasic

/-! ### Fields -/

namespace Field

theorem mem_of_ofText {s w : Bytes} (h : ofText s = .str w) {b : UInt8} (hb : b ∈ w) : b ∈ s := by
  simp only [ofText] at h
  split at h
  · cases h
  · cases h
    exact (Bytes.trim_infix s).subset hb

/-- The strings of a field consist of bytes of its text. -/
theorem mem_of_read {s w : Bytes} (h : (read s).1 = .str w) {b : UInt8} (hb : b ∈ w) : b ∈ s := by
  induction s with
  | nil =>
    rw [read_nil] at h
    cases h
    exact hb
  | cons c s ih =>
    by_cases hc : Byte.isBlank c = true
    · rw [read_blank hc] at h
      exact List.mem_cons_of_mem c (ih h)
    · by_cases hq : c = Byte.quote
      · subst hq
        by_cases hs : Byte.quote ∈ s
        · obtain ⟨inner, t, rfl, hinner⟩ := List.eq_append_cons_of_mem hs
          rw [(read_quoted hinner t).1] at h
          cases h
          exact List.mem_cons_of_mem _ (List.mem_append_left _ hb)
        · rw [(read_open hs).1] at h
          cases h
          exact List.mem_cons_of_mem _ hb
      · rw [(read_unquoted (Bool.eq_false_iff.mpr hc) hq s).1] at h
        exact List.takeWhile_subset _ (mem_of_ofText h hb)

theorem mem_of_readAll {s w : Bytes} (h : Value.str w ∈ (readAll s).1) {b : UInt8} (hb : b ∈ w) :
    b ∈ s := by
  induction s using readAll_induction with
  | stop s hstop =>
    rw [readAll_stop hstop, List.mem_singleton] at h
    exact mem_of_read h.symm hb
  | comma s r hcomma ih =>
    rw [readAll_comma hcomma] at h
    rcases List.mem_cons.mp h with h | h
    · exact mem_of_read h.symm hb
    · have hr : b ∈ after s := by
        rw [hcomma]
        exact List.mem_cons_of_mem _ (ih h)
      exact List.mem_of_mem_drop hr

/-- A listed field holds a newline only if its string does. -/
theorem newline_mem_of_write {v : Value} (hv : Readable v) (h : 0x0a ∈ write v) :
    ∃ w, v = .str w ∧ 0x0a ∈ w := by
  cases v with
  | num x =>
    obtain ⟨c, r, hwrite, hc, -, hr⟩ := Number.write_bytes hv
    rw [write, hwrite] at h
    rcases List.mem_cons.mp h with rfl | h
    · rcases hc with hc | hc <;> cases hc
    · rcases hr _ h with hr | hr <;> cases hr
  | str w =>
    refine ⟨w, rfl, ?_⟩
    rw [write] at h
    split at h
    · simpa [Byte.quote] using h
    · exact h

theorem newline_mem_of_writeAll {vs : List Value} (hvs : ∀ v ∈ vs, Readable v)
    (h : 0x0a ∈ writeAll vs) : ∃ w, Value.str w ∈ vs ∧ 0x0a ∈ w := by
  induction vs with
  | nil => cases h
  | cons v vs ih =>
    have hv : 0x0a ∈ write v → ∃ w, Value.str w ∈ v :: vs ∧ 0x0a ∈ w := by
      intro h
      obtain ⟨w, rfl, hw⟩ := newline_mem_of_write (hvs v List.mem_cons_self) h
      exact ⟨w, List.mem_cons_self, hw⟩
    cases vs with
    | nil =>
      rw [writeAll_singleton] at h
      exact hv h
    | cons u vs =>
      rw [writeAll_cons_cons, List.mem_append, List.mem_cons] at h
      rcases h with h | h | h
      · exact hv h
      · cases h
      · obtain ⟨w, hmem, hw⟩ := ih (fun v hv => hvs v (List.mem_cons_of_mem _ hv)) h
        exact ⟨w, List.mem_cons_of_mem _ hmem, hw⟩

/-- A trimmed text does not end in a line end. -/
theorem not_isLineEnd_of_trim {s : Bytes} (hs : Bytes.trim s = s) {b : UInt8}
    (hb : s.getLast? = some b) : Byte.isLineEnd b = false := by
  rw [Bool.eq_false_iff]
  intro hend
  refine (Bytes.trim_eq_self_iff.mp hs).2 ⟨[b], ?_, ?_⟩
  · rw [Byte.isLineEnd, Bool.or_eq_true, beq_iff_eq, beq_iff_eq] at hend
    rcases hend with rfl | rfl <;> decide
  · obtain ⟨r, rfl⟩ := List.getLast?_eq_some_iff.mp hb
    simp

theorem not_isLineEnd_of_write {v : Value} (hv : Readable v) {b : UInt8}
    (hb : (write v).getLast? = some b) : Byte.isLineEnd b = false := by
  cases v with
  | num x => exact not_isLineEnd_of_trim (plain_num hv).trimmed hb
  | str s =>
    rw [write] at hb
    split at hb
    · rw [List.getLast?_concat] at hb
      cases hb
      rfl
    · next hneeds =>
      by_cases hs : s = []
      · subst hs
        cases hb
      · simp only [needsQuotes, Bool.not_eq_true, Bool.and_eq_false_iff, Bool.or_eq_false_iff,
          Bool.not_eq_eq_eq_not, Bool.not_false, List.isEmpty_iff, bne_eq_false_iff_eq, hs,
          false_or] at hneeds
        exact not_isLineEnd_of_trim hneeds.2 hb

theorem not_isLineEnd_of_writeAll {vs : List Value} (hvs : ∀ v ∈ vs, Readable v) {b : UInt8}
    (hb : (writeAll vs).getLast? = some b) : Byte.isLineEnd b = false := by
  induction vs with
  | nil => cases hb
  | cons v vs ih =>
    cases vs with
    | nil =>
      rw [writeAll_singleton] at hb
      exact not_isLineEnd_of_write (hvs v List.mem_cons_self) hb
    | cons u vs =>
      rw [writeAll_cons_cons, List.getLast?_append, List.getLast?_cons] at hb
      cases hlast : (writeAll (u :: vs)).getLast? with
      | none =>
        rw [hlast] at hb
        cases hb
        rfl
      | some d =>
        rw [hlast] at hb
        cases hb
        exact ih (fun v hv => hvs v (List.mem_cons_of_mem _ hv)) hlast

end Field

/-! ### Tokens -/

namespace Lexer

open Token

theorem isLineEnd_of_isLetter {b : UInt8} (hb : Byte.isLetter b = true) :
    b ≠ 0x0a ∧ Byte.isLineEnd b = false := by
  grind [Byte.isLetter, Byte.isLineEnd]

/-- The bytes of names are no line ends. -/
theorem not_isLineEnd_of_nameTail {s : Bytes} {b : UInt8} (hb : b ∈ (nameTail s).1) :
    Byte.isLineEnd b = false := by
  have hall : ∀ c, isNameByte c = true → Byte.isLineEnd c = false := by
    grind [isNameByte, Byte.isDigit, Byte.isLetter, Byte.isLineEnd]
  rcases isNameByte_of_mem_nameTail hb with hname | rfl
  · exact hall b hname
  · rfl

theorem not_isLineEnd_of_spelling {w : Word} {b : UInt8} (hb : b ∈ w.spelling) :
    Byte.isLineEnd b = false :=
  (isLineEnd_of_isLetter (isSpelling_spelling w b hb).1).2

theorem not_isLineEnd_of_mark {m : Mark} {b : UInt8} (hb : b ∈ m.spelling) :
    Byte.isLineEnd b = false := by
  have hall : ∀ b ∈ m.spelling, Byte.isLineEnd b = false := by
    cases m <;> decide +kernel
  exact hall b hb

theorem not_isLineEnd_of_write {x : Float} (hx : x.isFinite = true) {b : UInt8}
    (hb : b ∈ Number.write x) : Byte.isLineEnd b = false := by
  have hdigit : ∀ b, Byte.isDigit b = true → Byte.isLineEnd b = false := by
    grind [Byte.isDigit, Byte.isLineEnd]
  obtain ⟨c, r, hwrite, hc, -, hr⟩ := Number.write_bytes hx
  rw [hwrite] at hb
  rcases List.mem_cons.mp hb with rfl | hb
  · rcases hc with hc | rfl
    · exact hdigit _ hc
    · rfl
  · rcases hr b hb with hr | rfl
    · exact hdigit _ hr
    · rfl

theorem ne_newline {b : UInt8} (hb : Byte.isLineEnd b = false) : b ≠ 0x0a := by
  rintro rfl
  cases hb

/-- A listed token holds a newline only if the text it was read from does. -/
theorem Reads.newline_mem {c : UInt8} {s : Bytes} {t : Token} {n : Nat} (h : Reads c s t n)
    (hmem : 0x0a ∈ t.listing) : 0x0a ∈ s := by
  cases h with
  | @keyword k n h =>
    exact absurd rfl (ne_newline (not_isLineEnd_of_spelling (w := .plain k) hmem))
  | remark h =>
    rcases List.mem_append.mp hmem with hmem | hmem
    · exact absurd rfl (ne_newline (not_isLineEnd_of_spelling (w := .rem) hmem))
    · exact List.mem_of_mem_drop hmem
  | data h =>
    rcases List.mem_append.mp hmem with hmem | hmem
    · exact absurd hmem (by decide)
    · obtain ⟨w, hw, hmem⟩ :=
        Field.newline_mem_of_writeAll (fun v hv => Field.readable_of_mem_readAll hv) hmem
      exact List.mem_of_mem_drop (Field.mem_of_readAll hw hmem)
  | symbol h hletter =>
    rcases List.mem_cons.mp hmem with heq | hmem
    · have hupper : Byte.isLetter (Byte.upper c) = true := by rw [isLetter_upper, hletter]
      exact absurd heq.symm (isLineEnd_of_isLetter hupper).1
    · exact absurd rfl (ne_newline (not_isLineEnd_of_nameTail hmem))
  | number hc h =>
    exact absurd rfl (ne_newline (not_isLineEnd_of_write (Number.isFinite_of_read? h) hmem))
  | string hc hs h =>
    subst hs
    simp only [Token.listing, List.mem_append, List.mem_singleton] at hmem
    rcases hmem with (hmem | hmem) | hmem
    · cases hmem
    · exact List.mem_append_left _ hmem
    · cases hmem
  | mark h => exact absurd rfl (ne_newline (not_isLineEnd_of_mark hmem))

theorem newline_mem_of_listingAll {s : Bytes} {ts : List Token} (h : Scans s ts)
    (hmem : 0x0a ∈ listingAll ts) : 0x0a ∈ s := by
  induction h with
  | nil => cases hmem
  | blank hc h ih => exact List.mem_cons_of_mem _ (ih hmem)
  | token hc ht h ih =>
    rw [listingAll_cons, List.mem_cons, List.mem_append] at hmem
    rcases hmem with hmem | hmem | hmem
    · cases hmem
    · exact List.mem_cons_of_mem _ (ht.newline_mem hmem)
    · exact List.mem_cons_of_mem _ (List.mem_of_mem_drop (ih hmem))

theorem getLast?_of_drop {s : Bytes} {n : Nat} {b : UInt8} (h : (s.drop n).getLast? = some b) :
    s.getLast? = some b := by
  rw [List.getLast?_drop] at h
  split at h
  · cases h
  · exact h

/-- A listed token ends in a line end only if it is a remark, which then takes the line end from the
end of the line. -/
theorem Reads.getLast? {c : UInt8} {s : Bytes} {t : Token} {n : Nat} (h : Reads c s t n) {b : UInt8}
    (hb : t.listing.getLast? = some b) (hend : Byte.isLineEnd b = true) :
    s.getLast? = some b := by
  have hmem := List.mem_of_getLast? hb
  cases h with
  | @keyword k n h =>
    rw [not_isLineEnd_of_spelling (w := .plain k) hmem] at hend
    cases hend
  | @remark n h =>
    rw [Token.listing, List.getLast?_append] at hb
    cases hlast : (s.drop n).getLast? with
    | none =>
      rw [hlast] at hb
      cases hb
      cases hend
    | some d =>
      rw [hlast] at hb
      cases hb
      exact getLast?_of_drop hlast
  | @data n h =>
    rw [Token.listing, List.getLast?_append] at hb
    cases hlast : (Field.writeAll (Field.readAll (s.drop n)).1).getLast? with
    | none =>
      rw [hlast] at hb
      cases hb
      cases hend
    | some d =>
      rw [hlast] at hb
      cases hb
      rw [Field.not_isLineEnd_of_writeAll (fun v hv => Field.readable_of_mem_readAll hv) hlast]
        at hend
      cases hend
  | symbol h hletter =>
    rcases List.mem_cons.mp hmem with rfl | hmem
    · rw [(isLineEnd_of_isLetter (by rw [isLetter_upper, hletter])).2] at hend
      cases hend
    · rw [not_isLineEnd_of_nameTail hmem] at hend
      cases hend
  | number hc h =>
    rw [not_isLineEnd_of_write (Number.isFinite_of_read? h) hmem] at hend
    cases hend
  | string hc hs h =>
    rw [Token.listing, List.getLast?_concat] at hb
    cases hb
    cases hend
  | mark h =>
    rw [not_isLineEnd_of_mark hmem] at hend
    cases hend

/-- Listed tokens end in a line end only if the line did. -/
theorem getLast?_of_listingAll {s : Bytes} {ts : List Token} (h : Scans s ts) {b : UInt8}
    (hb : (listingAll ts).getLast? = some b) (hend : Byte.isLineEnd b = true) :
    s.getLast? = some b := by
  have hcons : ∀ (c : UInt8) {s : Bytes}, s.getLast? = some b → (c :: s).getLast? = some b := by
    intro c s hs
    rw [List.getLast?_cons, hs]
    rfl
  induction h with
  | nil => cases hb
  | blank hc h ih => exact hcons _ (ih hb)
  | @token c s t n ts hc ht h ih =>
    rw [listingAll_cons, List.getLast?_cons, List.getLast?_append] at hb
    -- the last token decides, or the one in front if no token follows
    cases hlast : (listingAll ts).getLast? with
    | some d =>
      rw [hlast] at hb
      cases hb
      exact hcons c (getLast?_of_drop (ih hlast))
    | none =>
      rw [hlast] at hb
      cases hlisting : t.listing.getLast? with
      | some d =>
        rw [hlisting] at hb
        cases hb
        exact hcons c (ht.getLast? hlisting hend)
      | none =>
        rw [hlisting] at hb
        cases hb
        cases hend

end Lexer

end LineBasic
