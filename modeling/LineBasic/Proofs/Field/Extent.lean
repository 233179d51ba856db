import LineBasic.Proofs.Field

/-!
# How far fields reach

A field ends at a separator or at the end of the text, and is read from the bytes in front of that
alone. The one field that a separator does not end is a field that opens with a quote and has no
second one: it takes all the rest. So a list of fields reads the same at the end of a text and in
front of a colon, unless it leaves a quote open.

## Main definitions

* `Field.Open` — a field that lacks its second quote
* `Field.LeavesOpen` — lists whose last field does

## Main results

* `Field.readAll_append` — a list of fields in front of a colon or at the end
* `Field.exists_readAll` — the bytes that a list of fields takes
-/

namespace LineBasic.Field

/-- A field that opens with a quote and has no second one. -/
def Open (s : Bytes) : Prop :=
  ∃ r, s.dropWhile Byte.isBlank = Byte.quote :: r ∧ Byte.quote ∉ r

/-- A list of fields whose last field is open. -/
inductive LeavesOpen : Bytes → Prop
  | last {s : Bytes} (h : Open s) : LeavesOpen s
  | next {s r : Bytes} (h : after s = Byte.comma :: r) (hr : LeavesOpen r) : LeavesOpen s

/-! ### One field -/

theorem open_blank_iff {c : UInt8} (hc : Byte.isBlank c = true) {s : Bytes} :
    Open (c :: s) ↔ Open s := by
  rw [Open, Open, List.dropWhile_cons_of_pos hc]

theorem open_quote_iff {r : Bytes} : Open (Byte.quote :: r) ↔ Byte.quote ∉ r := by
  rw [Open, List.dropWhile_cons_of_neg (by decide)]
  simp

/-- An open field takes all the rest. -/
theorem Open.after_eq {s : Bytes} (h : Open s) : after s = [] := by
  induction s with
  | nil => exact List.drop_nil
  | cons c s ih =>
    by_cases hc : Byte.isBlank c = true
    · rw [after_blank hc]
      exact ih ((open_blank_iff hc).mp h)
    · obtain ⟨r, hdrop, hr⟩ := h
      rw [List.dropWhile_cons_of_neg hc] at hdrop
      cases hdrop
      exact (read_open hr).2

theorem takeWhile_not_isSeparator {s : Bytes} (h : s.dropWhile (!isSeparator ·) = []) :
    s.takeWhile (!isSeparator ·) = s := by
  have happend := List.takeWhile_append_dropWhile (p := (!isSeparator ·)) (l := s)
  rwa [h, List.append_nil] at happend

theorem dropWhile_takeWhile (s : Bytes) :
    (s.takeWhile (!isSeparator ·)).dropWhile (!isSeparator ·) = [] := by
  rw [List.dropWhile_eq_nil_iff]
  intro b hb
  exact List.mem_takeWhile_imp (p := (!isSeparator ·)) hb

/-- A text without separators ends at the separator behind it. -/
theorem dropWhile_append_separator {s : Bytes} (h : s.dropWhile (!isSeparator ·) = []) {d : UInt8}
    (hd : isSeparator d = true) (r : Bytes) :
    (s ++ d :: r).takeWhile (!isSeparator ·) = s ∧
      (s ++ d :: r).dropWhile (!isSeparator ·) = d :: r := by
  have hall : ∀ b ∈ s, (!isSeparator b) = true := by
    rw [← List.takeWhile_eq_self_iff]
    exact takeWhile_not_isSeparator h
  rw [List.takeWhile_append_of_pos hall, List.dropWhile_append_of_pos hall,
    List.takeWhile_cons_of_neg (by simp [hd]), List.dropWhile_cons_of_neg (by simp [hd]),
    List.append_nil]
  exact ⟨rfl, rfl⟩

/-- A field that is all of a text and is not open reads the same in front of a separator. -/
theorem read_append {f : Bytes} (hf : after f = []) (ho : ¬Open f) {d : UInt8}
    (hd : isSeparator d = true) (r : Bytes) :
    (read (f ++ d :: r)).1 = (read f).1 ∧ after (f ++ d :: r) = d :: r := by
  induction f with
  | nil =>
    have htake : (d :: r).takeWhile (!isSeparator ·) = [] :=
      List.takeWhile_cons_of_neg (by simp [hd])
    rw [List.nil_append, (read_separator htake).1, (read_separator htake).2,
      List.dropWhile_cons_of_neg (by simp [hd]), read_nil]
    exact ⟨by decide +kernel, rfl⟩
  | cons c f ih =>
    by_cases hc : Byte.isBlank c = true
    · rw [after_blank hc] at hf
      rw [open_blank_iff hc] at ho
      rw [List.cons_append, read_blank hc, read_blank hc, after_blank hc]
      exact ih hf ho
    · by_cases hq : c = Byte.quote
      · subst hq
        rw [open_quote_iff, not_not] at ho
        obtain ⟨inner, t, rfl, hinner⟩ := List.eq_append_cons_of_mem ho
        obtain ⟨hvalue, hafter⟩ := read_quoted hinner t
        rw [hafter] at hf
        rw [List.cons_append, List.append_assoc, List.cons_append,
          (read_quoted hinner (t ++ d :: r)).1, (read_quoted hinner (t ++ d :: r)).2, hvalue]
        exact ⟨rfl, (dropWhile_append_separator hf hd r).2⟩
      · have hblank : Byte.isBlank c = false := Bool.eq_false_iff.mpr hc
        obtain ⟨hvalue, hafter⟩ := read_unquoted hblank hq f
        obtain ⟨hvalue', hafter'⟩ := read_unquoted hblank hq (f ++ d :: r)
        rw [hafter] at hf
        obtain ⟨htake, hdrop⟩ := dropWhile_append_separator hf hd r
        rw [← List.cons_append] at hvalue' hafter'
        rw [hvalue', hafter', htake, hdrop, hvalue, takeWhile_not_isSeparator hf]
        exact ⟨rfl, rfl⟩

/-- A text without separators that starts with no blank and no quote is one field. -/
theorem read_unseparated {f : Bytes} (h : f.dropWhile (!isSeparator ·) = [])
    (hf : ∀ c ∈ f.head?, Byte.isBlank c = false ∧ c ≠ Byte.quote) :
    (read f).1 = ofText f ∧ after f = [] ∧ ¬Open f := by
  cases f with
  | nil =>
    rw [read_nil]
    exact ⟨by decide +kernel, List.drop_nil, fun ⟨r, hr, _⟩ => by cases hr⟩
  | cons c f =>
    obtain ⟨hc, hq⟩ := hf c rfl
    obtain ⟨hvalue, hafter⟩ := read_unquoted hc hq f
    rw [hvalue, hafter, takeWhile_not_isSeparator h]
    refine ⟨rfl, h, fun ⟨r, hr, _⟩ => ?_⟩
    rw [List.dropWhile_cons_of_neg (by simp [hc])] at hr
    cases hr
    exact hq rfl

/-- A text is its first field and the text behind it. -/
theorem exists_read (s : Bytes) :
    ∃ f, s = f ++ after s ∧ (read f).1 = (read s).1 ∧ after f = [] ∧ (after s ≠ [] → ¬Open f) := by
  induction s with
  | nil => exact ⟨[], by rw [after, List.drop_nil]; rfl, rfl, List.drop_nil, by simp [after]⟩
  | cons c s ih =>
    by_cases hc : Byte.isBlank c = true
    · obtain ⟨f, hs, hvalue, hf, ho⟩ := ih
      refine ⟨c :: f, ?_, ?_, ?_, ?_⟩
      · rw [after_blank hc, List.cons_append, ← hs]
      · rw [read_blank hc, read_blank hc, hvalue]
      · rw [after_blank hc, hf]
      · rw [after_blank hc, open_blank_iff hc]
        exact ho
    · by_cases hq : c = Byte.quote
      · subst hq
        by_cases hs : Byte.quote ∈ s
        · obtain ⟨inner, t, rfl, hinner⟩ := List.eq_append_cons_of_mem hs
          refine ⟨Byte.quote :: (inner ++ Byte.quote :: t.takeWhile (!isSeparator ·)),
            ?_, ?_, ?_, ?_⟩
          · rw [(read_quoted hinner t).2, List.cons_append, List.append_assoc, List.cons_append,
              List.takeWhile_append_dropWhile]
          · rw [(read_quoted hinner _).1, (read_quoted hinner t).1]
          · rw [(read_quoted hinner _).2, dropWhile_takeWhile]
          · rw [open_quote_iff, not_not]
            simp
        · have hafter := (read_open hs).2
          exact ⟨Byte.quote :: s, by rw [hafter, List.append_nil], rfl, hafter, by simp [hafter]⟩
      · have hblank : Byte.isBlank c = false := Bool.eq_false_iff.mpr hc
        obtain ⟨hvalue, hafter⟩ := read_unquoted hblank hq s
        have hhead : ∀ d ∈ ((c :: s).takeWhile (!isSeparator ·)).head?,
            Byte.isBlank d = false ∧ d ≠ Byte.quote := by
          rw [List.head?_takeWhile]
          simp only [List.head?_cons, Option.mem_def, Option.filter_eq_some_iff]
          rintro d ⟨⟨⟩, -⟩
          exact ⟨hblank, hq⟩
        obtain ⟨hvalue', hafter', ho⟩ := read_unseparated (dropWhile_takeWhile (c :: s)) hhead
        exact ⟨_, by rw [hafter, List.takeWhile_append_dropWhile], by rw [hvalue', hvalue], hafter',
          fun _ => ho⟩

/-- A field that ends at a comma reads the same whatever is put behind the text. -/
theorem read_append_of_comma {f t : Bytes} (h : after f = Byte.comma :: t) (y : Bytes) :
    (read (f ++ y)).1 = (read f).1 ∧ after (f ++ y) = Byte.comma :: (t ++ y) := by
  obtain ⟨g, hf, hvalue, hg, hog⟩ := exists_read f
  rw [h] at hf hog
  obtain ⟨hread, hafter⟩ := read_append hg (hog (by simp)) (d := Byte.comma) rfl (t ++ y)
  rw [← hvalue, ← hread, hf, List.append_assoc, List.cons_append]
  exact ⟨rfl, hafter⟩

/-! ### Lists of fields -/

theorem leavesOpen_stop_iff {s : Bytes} (h : ∀ r, after s ≠ Byte.comma :: r) :
    LeavesOpen s ↔ Open s := by
  refine ⟨fun hs => ?_, .last⟩
  cases hs with
  | last hs => exact hs
  | next hs _ => exact absurd hs (h _)

theorem leavesOpen_comma_iff {s r : Bytes} (h : after s = Byte.comma :: r) :
    LeavesOpen s ↔ LeavesOpen r := by
  refine ⟨fun hs => ?_, .next h⟩
  cases hs with
  | last hs =>
    rw [hs.after_eq] at h
    cases h
  | next hs hr =>
    rw [h] at hs
    cases hs
    exact hr

/-- A list of fields that is all of a text and leaves no quote open reads the same in front of a
colon. -/
theorem readAll_append_colon {f : Bytes} (hf : remainder f = []) (ho : ¬LeavesOpen f) (r : Bytes) :
    (readAll (f ++ Byte.colon :: r)).1 = (readAll f).1 ∧
      remainder (f ++ Byte.colon :: r) = Byte.colon :: r := by
  induction f using readAll_induction with
  | stop f hstop =>
    rw [remainder_stop hstop] at hf
    rw [leavesOpen_stop_iff hstop] at ho
    obtain ⟨hvalue, hafter⟩ := read_append hf ho (d := Byte.colon) rfl r
    have hstop' : ∀ t, after (f ++ Byte.colon :: r) ≠ Byte.comma :: t := by
      rw [hafter]
      intro t h
      cases h
    rw [readAll_stop hstop, readAll_stop hstop', remainder_stop hstop', hvalue, hafter]
    exact ⟨rfl, rfl⟩
  | comma f t h ih =>
    rw [remainder_comma h] at hf
    obtain ⟨hfirst, hcomma⟩ := read_append_of_comma h (Byte.colon :: r)
    rw [leavesOpen_comma_iff h] at ho
    obtain ⟨hvalues, hremainder⟩ := ih hf ho
    rw [readAll_comma h, readAll_comma hcomma, remainder_comma hcomma, hfirst, hvalues, hremainder]
    exact ⟨rfl, rfl⟩

/-- A list of fields that is all of a text reads the same where a line may go on behind it. -/
theorem readAll_append {f y : Bytes} (hf : remainder f = [])
    (hy : y = [] ∨ y.head? = some Byte.colon ∧ ¬LeavesOpen f) :
    (readAll (f ++ y)).1 = (readAll f).1 ∧ remainder (f ++ y) = y := by
  rcases hy with rfl | ⟨hy, ho⟩
  · rw [List.append_nil]
    exact ⟨rfl, hf⟩
  · obtain ⟨r, rfl⟩ := List.head?_eq_some_iff.mp hy
    exact readAll_append_colon hf ho r

/-- A text is a list of fields and the text behind it. -/
theorem exists_readAll (s : Bytes) :
    ∃ f, s = f ++ remainder s ∧ (readAll f).1 = (readAll s).1 ∧ remainder f = [] ∧
      (remainder s ≠ [] → ¬LeavesOpen f) := by
  induction s using readAll_induction with
  | stop s hstop =>
    obtain ⟨f, hs, hvalue, hf, ho⟩ := exists_read s
    have hstop' : ∀ r, after f ≠ Byte.comma :: r := by
      rw [hf]
      exact fun r h => nomatch h
    rw [remainder_stop hstop, readAll_stop hstop]
    refine ⟨f, hs, ?_⟩
    rw [readAll_stop hstop', remainder_stop hstop', leavesOpen_stop_iff hstop', hvalue]
    exact ⟨rfl, hf, ho⟩
  | comma s r h ih =>
    obtain ⟨f, hr, hvalues, hf, ho⟩ := ih
    obtain ⟨g, hs, hvalue, hg, hog⟩ := exists_read s
    rw [h] at hs hog
    -- the first field reads the same where it ends at its comma
    obtain ⟨hread, hafter⟩ := read_append hg (hog (by simp)) (d := Byte.comma) rfl f
    rw [remainder_comma h, readAll_comma h]
    refine ⟨g ++ Byte.comma :: f, ?_, ?_, ?_, ?_⟩
    · rw [List.append_assoc, List.cons_append, ← hr, ← hs]
    · rw [readAll_comma hafter, hread, hvalue, hvalues]
    · rw [remainder_comma hafter, hf]
    · rwa [leavesOpen_comma_iff hafter]

/-! ### Numbers of bytes -/

theorem read_snd_le (s : Bytes) : (read s).2 ≤ s.length := by
  induction s with
  | nil => rw [read_nil]; rfl
  | cons c s ih =>
    by_cases hc : Byte.isBlank c = true
    · rw [read_blank hc, List.length_cons]
      omega
    · rw [read_cons (Bool.eq_false_iff.mpr hc)]
      split
      · split
        · exact le_rfl
        · next hlength =>
          have hinner := (List.takeWhile_prefix (· != Byte.quote) (l := s)).length_le
          have hjunk := (List.takeWhile_prefix (!isSeparator ·)
            (l := s.drop ((s.takeWhile (· != Byte.quote)).length + 1))).length_le
          rw [List.length_drop] at hjunk
          rw [List.length_cons]
          omega
      · exact (List.takeWhile_prefix _).length_le

theorem readAll_snd_le (s : Bytes) : (readAll s).2 ≤ s.length := by
  induction s using readAll_induction with
  | stop s h =>
    rw [readAll_stop h]
    exact read_snd_le s
  | comma s r h ih =>
    have hlength := congrArg List.length h
    rw [after, List.length_drop, List.length_cons] at hlength
    rw [readAll_comma h]
    have := read_snd_le s
    omega

/-- The number of bytes of a list of fields in front of the text behind it. -/
theorem readAll_snd {f y : Bytes} (h : remainder (f ++ y) = y) :
    (readAll (f ++ y)).2 = f.length := by
  have hlength := congrArg List.length h
  have hle := readAll_snd_le (f ++ y)
  rw [remainder, List.length_drop] at hlength
  rw [List.length_append] at hlength hle
  omega

end LineBasic.Field
