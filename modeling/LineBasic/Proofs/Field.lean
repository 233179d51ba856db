import LineBasic.Field
import LineBasic.Proofs.Number.ReadBack
import LineBasic.Proofs.Text.Trim
import Mathlib.Data.List.Forall2

/-!
# Reading listed fields back

Fields are listed so that reading the list gives the same values: a string is quoted where it would
otherwise be taken for a number, be cut at a separator or lose white space. One kind of string is
not read back. A field that is not quoted may still start with a quote, when white space other than
blanks stood in front of it; it is listed as it is, and the quote is then taken for one that opens
a quoted field.

## Main definitions

* `Field.after` — the text behind a field
* `Field.Readable` — the values that fields can have
* `Field.startsWithQuote` — the strings that are not read back
* `Field.Datum` — values that always are

## Main results

* `Field.readable_of_mem_readAll` — reading gives readable values
* `Field.readAll_writeAll` — listed fields are read back
* `Field.startsWithQuote_of_readAll` — fields are read back only without such strings
-/

namespace LineBasic.Field

/-! ### One field -/

/-- The text behind a field, from its separator on. -/
def after (s : Bytes) : Bytes :=
  s.drop (read s).2

theorem read_blank {c : UInt8} (hc : Byte.isBlank c = true) (s : Bytes) :
    read (c :: s) = ((read s).1, (read s).2 + 1) := by
  have hblanks : ((c :: s).takeWhile Byte.isBlank).length =
      (s.takeWhile Byte.isBlank).length + 1 := by
    rw [List.takeWhile_cons_of_pos hc, List.length_cons]
  simp only [read, hblanks, List.drop_succ_cons]
  split
  · rfl
  · split
    · split
      · rfl
      · simp only [Prod.mk.injEq, true_and]
        omega
    · simp only [Prod.mk.injEq, true_and]
      omega

theorem after_blank {c : UInt8} (hc : Byte.isBlank c = true) (s : Bytes) :
    after (c :: s) = after s := by
  rw [after, read_blank hc]
  rfl

theorem read_nil : read [] = (.str [], 0) := by
  decide +kernel

section FirstByte

variable {c : UInt8} (hc : Byte.isBlank c = false)
include hc

theorem read_cons (r : Bytes) :
    read (c :: r) =
      if c == Byte.quote then
        if (r.takeWhile (· != Byte.quote)).length = r.length then
          (.str (r.takeWhile (· != Byte.quote)), r.length + 1)
        else
          (.str (r.takeWhile (· != Byte.quote)),
            1 + (r.takeWhile (· != Byte.quote)).length + 1 +
              ((r.drop ((r.takeWhile (· != Byte.quote)).length + 1)).takeWhile
                (!isSeparator ·)).length)
      else
        (ofText ((c :: r).takeWhile (!isSeparator ·)),
          ((c :: r).takeWhile (!isSeparator ·)).length) := by
  have hblanks : ((c :: r).takeWhile Byte.isBlank).length = 0 := by
    rw [List.takeWhile_cons_of_neg (by rw [hc]; simp), List.length_nil]
  simp only [read, hblanks, List.drop_zero, List.length_cons, Nat.zero_add]

/-- A field that is not quoted reaches up to the next separator. -/
theorem read_unquoted (hq : c ≠ Byte.quote) (r : Bytes) :
    (read (c :: r)).1 = ofText ((c :: r).takeWhile (!isSeparator ·)) ∧
      after (c :: r) = (c :: r).dropWhile (!isSeparator ·) := by
  rw [after, read_cons hc, if_neg (by simpa using hq)]
  exact ⟨rfl, Bytes.drop_length_takeWhile ..⟩

end FirstByte

theorem takeWhile_inner {inner : Bytes} (h : Byte.quote ∉ inner) (rest : Bytes) :
    (inner ++ Byte.quote :: rest).takeWhile (· != Byte.quote) = inner := by
  rw [List.takeWhile_append_of_pos (fun c hc => by simp; rintro rfl; exact h hc),
    List.takeWhile_cons_of_neg (by simp), List.append_nil]

/-- A quoted field ends behind its second quote, and what follows up to the separator is dropped. -/
theorem read_quoted {inner : Bytes} (hinner : Byte.quote ∉ inner) (t : Bytes) :
    (read (Byte.quote :: (inner ++ Byte.quote :: t))).1 = .str inner ∧
      after (Byte.quote :: (inner ++ Byte.quote :: t)) = t.dropWhile (!isSeparator ·) := by
  have hdrop : (inner ++ Byte.quote :: t).drop (inner.length + 1) = t := by
    rw [← List.drop_drop, List.drop_left, List.drop_succ_cons, List.drop_zero]
  rw [after, read_cons (by decide), if_pos (beq_self_eq_true _), takeWhile_inner hinner,
    if_neg (by simp), hdrop]
  refine ⟨rfl, ?_⟩
  rw [Nat.add_comm 1 inner.length, ← List.drop_drop, List.drop_succ_cons, hdrop,
    Bytes.drop_length_takeWhile]

/-- Without a second quote the field is all the rest. -/
theorem read_open {r : Bytes} (hr : Byte.quote ∉ r) :
    (read (Byte.quote :: r)).1 = .str r ∧ after (Byte.quote :: r) = [] := by
  have htake : r.takeWhile (· != Byte.quote) = r :=
    List.takeWhile_eq_self_iff.mpr (fun c hc => by simp; rintro rfl; exact hr hc)
  rw [after, read_cons (by decide), if_pos (beq_self_eq_true _), htake, if_pos rfl]
  exact ⟨rfl, by simp⟩

/-- A quoted field holds no quote. -/
theorem read_quote (r : Bytes) :
    ∃ inner, Byte.quote ∉ inner ∧ (read (Byte.quote :: r)).1 = .str inner := by
  by_cases hr : Byte.quote ∈ r
  · obtain ⟨inner, t, rfl, hinner⟩ := List.eq_append_cons_of_mem hr
    exact ⟨inner, hinner, (read_quoted hinner t).1⟩
  · exact ⟨r, hr, (read_open hr).1⟩

theorem dropWhile_eq (t : Bytes) : t.dropWhile (!isSeparator ·) = [] ∨
    ∃ c r, t.dropWhile (!isSeparator ·) = c :: r ∧ isSeparator c = true := by
  cases ht : t.dropWhile (!isSeparator ·) with
  | nil => exact .inl rfl
  | cons c r =>
    have hc := List.head?_dropWhile_not (!isSeparator ·) t
    rw [ht] at hc
    exact .inr ⟨c, r, rfl, by simpa using hc⟩

/-- The text behind a field is empty or starts with a separator. -/
theorem after_eq (s : Bytes) :
    after s = [] ∨ ∃ c r, after s = c :: r ∧ isSeparator c = true := by
  induction s with
  | nil => exact .inl (by rw [after, List.drop_nil])
  | cons c s ih =>
    by_cases hc : Byte.isBlank c = true
    · rw [after_blank hc]
      exact ih
    · by_cases hq : c = Byte.quote
      · subst hq
        by_cases hs : Byte.quote ∈ s
        · obtain ⟨inner, t, rfl, hinner⟩ := List.eq_append_cons_of_mem hs
          rw [(read_quoted hinner t).2]
          exact dropWhile_eq t
        · exact .inl (read_open hs).2
      · rw [(read_unquoted (Bool.eq_false_iff.mpr hc) hq s).2]
        exact dropWhile_eq _

/-! ### The values of fields -/

/-- The values that fields can have: finite numbers, strings that were quoted, and strings that
need no quotes. -/
def Readable : Value → Prop
  | .num x => x.isFinite = true
  | .str s => Byte.quote ∉ s ∨ needsQuotes s = false

theorem readable_ofText {s : Bytes} (hs : s.any isSeparator = false) : Readable (ofText s) := by
  have hseparators : (Bytes.trim s).any isSeparator = false := by
    rw [List.any_eq_false] at hs ⊢
    exact fun c hc => hs c ((Bytes.trim_infix s).subset hc)
  simp only [ofText]
  split
  · next x hx => exact Number.isFinite_of_read? hx
  · next hnone =>
    refine .inr ?_
    rw [needsQuotes, hnone, hseparators, Bytes.trim_trim]
    simp

theorem any_takeWhile_not_isSeparator (s : Bytes) :
    (s.takeWhile (!isSeparator ·)).any isSeparator = false := by
  rw [List.any_eq_false]
  intro c hc
  simpa using List.mem_takeWhile_imp hc

theorem readable_read (s : Bytes) : Readable (read s).1 := by
  induction s with
  | nil =>
    rw [read_nil]
    exact .inl (by simp)
  | cons c s ih =>
    by_cases hc : Byte.isBlank c = true
    · rw [read_blank hc]
      exact ih
    · by_cases hq : c = Byte.quote
      · subst hq
        obtain ⟨inner, hinner, hread⟩ := read_quote s
        rw [hread]
        exact .inl hinner
      · rw [(read_unquoted (Bool.eq_false_iff.mpr hc) hq s).1]
        exact readable_ofText (any_takeWhile_not_isSeparator _)

/-! ### Reading back -/

/-- The strings that are not read back. -/
def startsWithQuote : Value → Bool
  | .num _ => false
  | .str s => s.head? == some Byte.quote

/-- The values that a list of data can be made up of: finite numbers, and strings without a
quote. -/
def Datum : Value → Prop
  | .num x => x.isFinite = true
  | .str s => Byte.quote ∉ s

theorem Datum.readable {v : Value} (hv : Datum v) : Readable v ∧ startsWithQuote v = false := by
  cases v with
  | num x => exact ⟨hv, rfl⟩
  | str s =>
    refine ⟨.inl hv, beq_eq_false_iff_ne.mpr fun hs => ?_⟩
    exact hv (List.mem_of_mem_head? hs)

/-- A text that a field which is not quoted is listed as, and its value. -/
structure Plain (w : Bytes) (v : Value) : Prop where
  value : ofText w = v
  separators : w.any isSeparator = false
  trimmed : Bytes.trim w = w
  quote : w.head? ≠ some Byte.quote

theorem plain_num {x : Float} (hx : x.isFinite = true) : Plain (Number.write x) (.num x) := by
  obtain ⟨c, r, hwrite, hc, -, hr⟩ := Number.write_bytes hx
  have hbytes : ∀ b ∈ Number.write x, Byte.isDigit b = true ∨ b = 0x2e ∨ b = 0x2d := by
    rw [hwrite]
    intro b hb
    rcases List.mem_cons.mp hb with rfl | hb
    · exact hc.imp_right .inr
    · exact (hr b hb).imp_right .inl
  have htrim := Bytes.trim_of_number_bytes hbytes
  refine ⟨?_, ?_, htrim, ?_⟩
  · rw [ofText, htrim, Number.read?_write hx]
  · rw [List.any_eq_false]
    intro b hb
    rcases hbytes b hb with hb | rfl | rfl
    · intro hsep
      simp only [isSeparator, Bool.or_eq_true, beq_iff_eq] at hsep
      rcases hsep with rfl | rfl <;> cases hb
    · decide
    · decide
  · rw [hwrite, List.head?_cons]
    rintro ⟨rfl⟩
    rcases hc with hc | hc <;> cases hc

theorem plain_str {s : Bytes} (hs : needsQuotes s = false) (hq : s.head? ≠ some Byte.quote) :
    Plain s (.str s) := by
  by_cases hne : s = []
  · subst hne
    exact ⟨by decide +kernel, rfl, rfl, hq⟩
  · simp only [needsQuotes, Bool.and_eq_false_iff, Bool.or_eq_false_iff, Bool.not_eq_eq_eq_not,
      Bool.not_false, List.isEmpty_iff, bne_eq_false_iff_eq, hne, false_or,
      Option.isSome_eq_false_iff, Option.isNone_iff_eq_none] at hs
    obtain ⟨⟨hread, hseparators⟩, htrim⟩ := hs
    exact ⟨by rw [ofText, htrim, hread], hseparators, htrim, hq⟩

/-- A text after which a list of fields goes on or ends: at once, or after a space. -/
def Ends (t : Bytes) : Prop :=
  t.takeWhile (!isSeparator ·) = [] ∨ t.takeWhile (!isSeparator ·) = [0x20]

theorem separator_bytes {c : UInt8} (hc : isSeparator c = true) :
    Byte.isBlank c = false ∧ c ≠ Byte.quote := by
  rw [isSeparator, Bool.or_eq_true, beq_iff_eq, beq_iff_eq] at hc
  rcases hc with rfl | rfl <;> decide

/-- A field without text. -/
theorem read_separator {t : Bytes} (ht : t.takeWhile (!isSeparator ·) = []) :
    (read t).1 = ofText [] ∧ after t = t.dropWhile (!isSeparator ·) := by
  cases t with
  | nil => exact ⟨by rw [read_nil]; decide +kernel, by rw [after, List.drop_nil]; rfl⟩
  | cons c r =>
    have hc : isSeparator c = true := by
      by_contra h
      rw [List.takeWhile_cons_of_pos (by simp [h])] at ht
      cases ht
    obtain ⟨hblank, hq⟩ := separator_bytes hc
    rw [← ht]
    exact read_unquoted hblank hq r

theorem Plain.read {w : Bytes} {v : Value} (h : Plain w v) {t : Bytes} (ht : Ends t) :
    (read (w ++ t)).1 = v ∧ after (w ++ t) = t.dropWhile (!isSeparator ·) := by
  cases w with
  | nil =>
    rw [List.nil_append, ← h.value]
    rcases ht with ht | ht
    · exact read_separator ht
    · cases t with
      | nil => cases ht
      | cons c r =>
        have hc : isSeparator c = false := by
          by_contra hc
          rw [List.takeWhile_cons_of_neg (by simp [hc])] at ht
          cases ht
        rw [List.takeWhile_cons_of_pos (by simp [hc]), List.cons.injEq] at ht
        obtain ⟨rfl, hr⟩ := ht
        rw [read_blank rfl, after_blank rfl, List.dropWhile_cons_of_pos (by simp [hc])]
        exact read_separator hr
  | cons c w =>
    have hblank := Bytes.isBlank_head_of_trim h.trimmed
    have hq : c ≠ Byte.quote := fun heq => h.quote (congrArg some heq)
    have hall : ∀ b ∈ c :: w, (!isSeparator b) = true := by
      intro b hb
      simpa using List.any_eq_false.mp h.separators b hb
    obtain ⟨hvalue, hafter⟩ := read_unquoted hblank hq (w ++ t)
    rw [← List.cons_append] at hvalue hafter
    rw [List.takeWhile_append_of_pos hall] at hvalue
    rw [List.dropWhile_append_of_pos hall] at hafter
    refine ⟨?_, hafter⟩
    rcases ht with ht | ht
    · rw [hvalue, ht, List.append_nil, h.value]
    · rw [hvalue, ht, ofText, Bytes.trim_append_space h.trimmed, ← h.value, ofText, h.trimmed]

/-- A listed field is read back, unless it is a string that starts with a quote. -/
theorem read_write {v : Value} (hv : Readable v) (hq : startsWithQuote v = false) {t : Bytes}
    (ht : Ends t) :
    (read (write v ++ t)).1 = v ∧ after (write v ++ t) = t.dropWhile (!isSeparator ·) := by
  cases v with
  | num x => exact (plain_num hv).read ht
  | str s =>
    have hhead : s.head? ≠ some Byte.quote := by simpa [startsWithQuote] using hq
    rw [write]
    split
    · next hneeds =>
      have hinner : Byte.quote ∉ s := hv.resolve_right (by simp [hneeds])
      simpa using read_quoted hinner t
    · next hneeds => exact (plain_str (Bool.eq_false_iff.mpr hneeds) hhead).read ht

/-- A string that starts with a quote is read as another string. -/
theorem read_write_ne {v : Value} (hv : Readable v) (hq : startsWithQuote v = true) (t : Bytes) :
    v.same (read (write v ++ t)).1 = false := by
  cases v with
  | num x => cases hq
  | str s =>
    obtain ⟨r, rfl⟩ : ∃ r, s = Byte.quote :: r := by
      cases s with
      | nil => cases hq
      | cons c r => exact ⟨r, by simpa [startsWithQuote] using hq⟩
    have hneeds : needsQuotes (Byte.quote :: r) = false := hv.resolve_left (by simp)
    obtain ⟨inner, hinner, hread⟩ := read_quote (r ++ t)
    rw [write, hneeds, if_neg (by simp), List.cons_append, hread, Value.same, beq_eq_false_iff_ne]
    rintro rfl
    exact hinner List.mem_cons_self

/-! ### Lists of fields -/

/-- The text behind a list of fields. -/
def remainder (s : Bytes) : Bytes :=
  s.drop (readAll s).2

theorem readAll_stop {s : Bytes} (h : ∀ r, after s ≠ Byte.comma :: r) :
    readAll s = ([(read s).1], (read s).2) := by
  rw [readAll.eq_def]
  simp only
  split
  · rfl
  · next c r hdrop =>
    rw [if_neg]
    intro hc
    rw [beq_iff_eq] at hc
    exact h r (hc ▸ hdrop)

theorem readAll_comma {s r : Bytes} (h : after s = Byte.comma :: r) :
    readAll s = ((read s).1 :: (readAll r).1, (read s).2 + 1 + (readAll r).2) := by
  rw [readAll.eq_def]
  simp only
  split
  · next hdrop =>
    rw [after, hdrop] at h
    cases h
  · next c r' hdrop =>
    rw [after, hdrop] at h
    cases h
    rw [if_pos (beq_self_eq_true _)]

theorem remainder_stop {s : Bytes} (h : ∀ r, after s ≠ Byte.comma :: r) :
    remainder s = after s := by
  rw [remainder, readAll_stop h, after]

theorem remainder_comma {s r : Bytes} (h : after s = Byte.comma :: r) :
    remainder s = remainder r := by
  rw [remainder, readAll_comma h, ← List.drop_drop, ← List.drop_drop, ← after, h]
  rfl

/-- Lists of fields are read field by field. -/
theorem readAll_induction {motive : Bytes → Prop}
    (stop : ∀ s, (∀ r, after s ≠ Byte.comma :: r) → motive s)
    (comma : ∀ s r, after s = Byte.comma :: r → motive r → motive s) (s : Bytes) : motive s := by
  by_cases h : ∃ r, after s = Byte.comma :: r
  · obtain ⟨r, hr⟩ := h
    exact comma s r hr (readAll_induction stop comma r)
  · exact stop s fun r hr => h ⟨r, hr⟩
termination_by s.length
decreasing_by
  have hlength := congrArg List.length hr
  simp only [after, List.length_drop, List.length_cons] at hlength
  omega

/-- A list of fields ends at a colon or at the end of the text. -/
theorem remainder_eq (s : Bytes) : remainder s = [] ∨ ∃ r, remainder s = Byte.colon :: r := by
  induction s using readAll_induction with
  | stop s h =>
    rw [remainder_stop h]
    rcases after_eq s with hnil | ⟨c, r, hcons, hc⟩
    · exact .inl hnil
    · rw [isSeparator, Bool.or_eq_true, beq_iff_eq, beq_iff_eq] at hc
      rcases hc with rfl | rfl
      · exact absurd hcons (h r)
      · exact .inr ⟨r, hcons⟩
  | comma s r h ih =>
    rw [remainder_comma h]
    exact ih

theorem readable_of_mem_readAll {s : Bytes} {v : Value} (hv : v ∈ (readAll s).1) : Readable v := by
  induction s using readAll_induction with
  | stop s h =>
    rw [readAll_stop h, List.mem_singleton] at hv
    exact hv ▸ readable_read s
  | comma s r h ih =>
    rw [readAll_comma h] at hv
    rcases List.mem_cons.mp hv with rfl | hv
    · exact readable_read s
    · exact ih hv

/-- A list has at least one field. -/
theorem readAll_eq_cons (s : Bytes) : ∃ vs, (readAll s).1 = (read s).1 :: vs := by
  by_cases h : ∃ r, after s = Byte.comma :: r
  · obtain ⟨r, hr⟩ := h
    exact ⟨_, by rw [readAll_comma hr]⟩
  · exact ⟨[], by rw [readAll_stop fun r hr => h ⟨r, hr⟩]⟩

theorem readAll_blank {c : UInt8} (hc : Byte.isBlank c = true) (s : Bytes) :
    (readAll (c :: s)).1 = (readAll s).1 ∧ remainder (c :: s) = remainder s := by
  have hafter := after_blank hc s
  by_cases h : ∃ r, after s = Byte.comma :: r
  · obtain ⟨r, hr⟩ := h
    rw [remainder_comma hr, remainder_comma (hafter.trans hr), readAll_comma hr,
      readAll_comma (hafter.trans hr), read_blank hc]
    exact ⟨rfl, rfl⟩
  · have hstop : ∀ r, after s ≠ Byte.comma :: r := fun r hr => h ⟨r, hr⟩
    have hstop' : ∀ r, after (c :: s) ≠ Byte.comma :: r := by rwa [hafter]
    rw [remainder_stop hstop, remainder_stop hstop', readAll_stop hstop, readAll_stop hstop',
      read_blank hc, hafter]
    exact ⟨rfl, rfl⟩

theorem writeAll_cons_cons (v w : Value) (vs : List Value) :
    writeAll (v :: w :: vs) = write v ++ Byte.comma :: writeAll (w :: vs) := by
  simp [writeAll, List.intercalate]

theorem writeAll_singleton (v : Value) : writeAll [v] = write v := by
  simp [writeAll, List.intercalate]

theorem ends_comma (s : Bytes) : Ends (Byte.comma :: s) :=
  .inl rfl

/-- What may follow a list of fields: the end, or a colon, perhaps after a space. -/
structure EndsList (t : Bytes) : Prop where
  ends : Ends t
  colon : ∀ r, t.dropWhile (!isSeparator ·) ≠ Byte.comma :: r

/-- Listed fields are read back. -/
theorem readAll_writeAll {vs : List Value} (hne : vs ≠ []) (hvs : ∀ v ∈ vs, Readable v)
    (hq : ∀ v ∈ vs, startsWithQuote v = false) {t : Bytes} (ht : EndsList t) :
    (readAll (writeAll vs ++ t)).1 = vs ∧
      remainder (writeAll vs ++ t) = t.dropWhile (!isSeparator ·) := by
  induction vs with
  | nil => exact absurd rfl hne
  | cons v vs ih =>
    have hv := hvs v List.mem_cons_self
    have hqv := hq v List.mem_cons_self
    cases vs with
    | nil =>
      rw [writeAll_singleton]
      obtain ⟨hread, hafter⟩ := read_write hv hqv ht.ends
      have hstop : ∀ r, after (write v ++ t) ≠ Byte.comma :: r := hafter ▸ ht.colon
      rw [readAll_stop hstop, remainder_stop hstop, hread]
      exact ⟨rfl, hafter⟩
    | cons w vs =>
      rw [writeAll_cons_cons, List.append_assoc, List.cons_append]
      obtain ⟨hread, hafter⟩ := read_write hv hqv (ends_comma (writeAll (w :: vs) ++ t))
      obtain ⟨hvalues, hremainder⟩ := ih (by simp) (fun u hu => hvs u (List.mem_cons_of_mem _ hu))
        (fun u hu => hq u (List.mem_cons_of_mem _ hu))
      have hcomma : after (write v ++ Byte.comma :: (writeAll (w :: vs) ++ t)) =
        Byte.comma :: (writeAll (w :: vs) ++ t) := hafter
      rw [readAll_comma hcomma, remainder_comma hcomma, hread, hvalues]
      exact ⟨rfl, hremainder⟩

/-- Fields are read back only if no string starts with a quote. -/
theorem startsWithQuote_of_readAll {vs : List Value} (hvs : ∀ v ∈ vs, Readable v) {t : Bytes}
    (h : List.Forall₂ (fun v w => v.same w = true) vs (readAll (writeAll vs ++ t)).1) :
    ∀ v ∈ vs, startsWithQuote v = false := by
  induction vs with
  | nil => simp
  | cons v vs ih =>
    have hv := hvs v List.mem_cons_self
    -- the first field alone decides whether `v` is read back
    have hqv : ∀ u, v.same (read (write v ++ u)).1 = true → startsWithQuote v = false := by
      intro u hsame
      by_contra hq
      rw [read_write_ne hv (by simpa using hq) u] at hsame
      cases hsame
    cases vs with
    | nil =>
      rw [writeAll_singleton] at h
      obtain ⟨rest, hrest⟩ := readAll_eq_cons (write v ++ t)
      rw [hrest, List.forall₂_cons] at h
      simpa using hqv t h.1
    | cons w vs =>
      rw [writeAll_cons_cons, List.append_assoc, List.cons_append] at h
      obtain ⟨rest, hrest⟩ := readAll_eq_cons (write v ++ Byte.comma :: (writeAll (w :: vs) ++ t))
      have hq := hrest ▸ h
      rw [List.forall₂_cons] at hq
      have hq := hqv _ hq.1
      have hcomma : after (write v ++ Byte.comma :: (writeAll (w :: vs) ++ t)) =
        Byte.comma :: (writeAll (w :: vs) ++ t) := (read_write hv hq (ends_comma _)).2
      rw [readAll_comma hcomma, List.forall₂_cons] at h
      intro u hu
      rcases List.mem_cons.mp hu with rfl | hu
      · exact hq
      · exact ih (fun u hu => hvs u (List.mem_cons_of_mem _ hu)) h.2 u hu

end LineBasic.Field
