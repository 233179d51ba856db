import LineBasic.Machine.Command
import LineBasic.Proofs.Text.Trim
import Mathlib.Data.List.Basic
import Mathlib.Data.List.TakeWhile

/-!
# Words in a text

Blanks and letter case do not matter where words are recognised, so whether a word stands at the
start of a text depends only on the *squeezed* text, in upper case and without its blanks. Two texts
are alike for words when the same words stand at their starts, whatever letters come before them:
then a name in front of the one ends where it ends in front of the other.

A word ends with its last letter, so the squeezed text also says how many bytes the word takes: a
text that does not end in a blank and squeezes to the word is exactly what is taken, whatever
follows it.

## Main definitions

* `Lexer.Tight` — texts that do not end in a blank
* `Lexer.Alike` — texts that are alike for words

## Main results

* `Lexer.keyword?_eq_some`, `Lexer.keyword?_isSome_iff` — words as beginnings of squeezed texts
* `Lexer.keyword?_append`, `Lexer.exists_of_keyword?` — the bytes that a word takes
* `Lexer.alike_append`, `Lexer.alike_of_stops`, `Lexer.alike_data` — when texts are alike
-/

namespace LineBasic.Lexer

open Command (squeeze)

/-! ### Squeezed texts -/

theorem squeeze_append (s t : Bytes) : squeeze (s ++ t) = squeeze s ++ squeeze t := by
  simp [squeeze]

theorem squeeze_blank {c : UInt8} (hc : Byte.isBlank c = true) (s : Bytes) :
    squeeze (c :: s) = squeeze s := by
  simp [squeeze, hc]

theorem squeeze_cons {c : UInt8} (hc : Byte.isBlank c = false) (s : Bytes) :
    squeeze (c :: s) = Byte.upper c :: squeeze s := by
  simp [squeeze, hc]

theorem squeeze_dropWhile (s : Bytes) : squeeze (s.dropWhile Byte.isBlank) = squeeze s := by
  induction s with
  | nil => rfl
  | cons c s ih =>
    by_cases hc : Byte.isBlank c = true
    · rw [List.dropWhile_cons_of_pos hc, ih, squeeze_blank hc]
    · rw [List.dropWhile_cons_of_neg hc]

theorem drop_blanks (s : Bytes) : s.drop (blanks s) = s.dropWhile Byte.isBlank :=
  Bytes.drop_length_takeWhile Byte.isBlank s

theorem isBlank_of_drop_blanks {s : Bytes} {c : UInt8} {r : Bytes}
    (h : s.drop (blanks s) = c :: r) : Byte.isBlank c = false := by
  have hc := List.head?_dropWhile_not Byte.isBlank s
  rw [← drop_blanks, h] at hc
  simpa using hc

theorem blanks_cons {c : UInt8} (hc : Byte.isBlank c = false) (s : Bytes) :
    blanks (c :: s) = 0 := by
  rw [blanks, List.takeWhile_cons_of_neg (by simp [hc]), List.length_nil]

theorem drop_blanks_append {b : Bytes} (hb : ∀ d ∈ b, Byte.isBlank d = true) {c : UInt8}
    (hc : Byte.isBlank c = false) (s : Bytes) :
    blanks (b ++ c :: s) = b.length ∧ (b ++ c :: s).drop (blanks (b ++ c :: s)) = c :: s := by
  have hblanks : blanks (b ++ c :: s) = b.length := by
    rw [blanks, List.takeWhile_append_of_pos hb, List.takeWhile_cons_of_neg (by simp [hc]),
      List.append_nil]
  exact ⟨hblanks, by rw [hblanks, List.drop_left]⟩

theorem eq_append_of_drop_blanks {s : Bytes} {c : UInt8} {r : Bytes}
    (h : s.drop (blanks s) = c :: r) :
    ∃ b, s = b ++ c :: r ∧ b.length = blanks s ∧ ∀ d ∈ b, Byte.isBlank d = true := by
  refine ⟨s.takeWhile Byte.isBlank, ?_, rfl, fun d hd => List.mem_takeWhile_imp hd⟩
  rw [← h, drop_blanks, List.takeWhile_append_dropWhile]

theorem squeeze_of_isBlank {b : Bytes} (hb : ∀ d ∈ b, Byte.isBlank d = true) : squeeze b = [] := by
  induction b with
  | nil => rfl
  | cons d b ih =>
    rw [List.forall_mem_cons] at hb
    rw [squeeze_blank hb.1, ih hb.2]

/-- A text of letters in upper case, as words are spelt. -/
def IsSpelling (w : Bytes) : Prop :=
  ∀ c ∈ w, Byte.isLetter c = true ∧ Byte.upper c = c ∧ Byte.isBlank c = false

theorem IsSpelling.squeeze {w : Bytes} (h : IsSpelling w) : squeeze w = w := by
  induction w with
  | nil => rfl
  | cons c w ih =>
    obtain ⟨-, hupper, hblank⟩ := h c List.mem_cons_self
    rw [squeeze_cons hblank, hupper, ih fun b hb => h b (List.mem_cons_of_mem _ hb)]

/-! ### Commands -/

theorem isLetter_of_mem_spelling {c : Command} {b : UInt8} (hb : b ∈ c.spelling) :
    Byte.isLetter b = true := by
  have hall : ∀ b ∈ c.spelling, Byte.isLetter b = true := by cases c <;> decide +kernel
  exact hall b hb

theorem squeeze_of_read? {t : Bytes} {c : Command} (h : Command.read? t = some c) :
    squeeze t = c.spelling := by
  have hspelling := List.find?_some h
  exact (beq_iff_eq.mp hspelling).symm

/-! ### Tight texts -/

/-- A text that does not end in a blank. -/
def Tight (s : Bytes) : Prop :=
  ∀ c ∈ s.getLast?, Byte.isBlank c = false

theorem tight_nil : Tight [] := by
  simp [Tight]

theorem tight_cons_iff {c : UInt8} (hc : Byte.isBlank c = false) {s : Bytes} :
    Tight (c :: s) ↔ Tight s := by
  cases s with
  | nil => simp [Tight, hc]
  | cons d s => rw [Tight, Tight, List.getLast?_cons_cons]

theorem tight_append {b s : Bytes} (hs : s ≠ []) : Tight (b ++ s) ↔ Tight s := by
  rw [Tight, Tight, List.getLast?_append_of_ne_nil _ hs]

/-- A tight text starts with blanks and the first of its squeezed bytes. -/
theorem Tight.exists_cons {s : Bytes} (hs : Tight s) {a : UInt8} {q : Bytes}
    (h : squeeze s = a :: q) :
    ∃ b c r, s = b ++ c :: r ∧ (∀ d ∈ b, Byte.isBlank d = true) ∧ Byte.isBlank c = false ∧
      Byte.upper c = a ∧ squeeze r = q ∧ Tight r := by
  induction s with
  | nil => cases h
  | cons c s ih =>
    cases hc : Byte.isBlank c with
    | false =>
      rw [squeeze_cons hc, List.cons.injEq] at h
      exact ⟨[], c, s, rfl, by simp, hc, h.1, h.2, (tight_cons_iff hc).mp hs⟩
    | true =>
      rw [squeeze_blank hc] at h
      have hne : s ≠ [] := by
        rintro rfl
        cases h
      obtain ⟨b, d, r, rfl, hb, hd, hrest⟩ := ih ((tight_append (b := [c]) hne).mp hs) h
      exact ⟨c :: b, d, r, rfl, List.forall_mem_cons.mpr ⟨hc, hb⟩, hd, hrest⟩

theorem Tight.eq_nil {s : Bytes} (hs : Tight s) (h : squeeze s = []) : s = [] := by
  induction s with
  | nil => rfl
  | cons c s ih =>
    cases hc : Byte.isBlank c with
    | false =>
      rw [squeeze_cons hc] at h
      cases h
    | true =>
      rw [squeeze_blank hc] at h
      by_cases hne : s = []
      · subst hne
        rw [hs c rfl] at hc
        cases hc
      · exact absurd (ih ((tight_append (b := [c]) hne).mp hs) h) hne

/-! ### Matching -/

/-- Letters take a tight text that squeezes to them. -/
theorem matchLetters_append {w x : Bytes} (hx : Tight x) (h : squeeze x = w) (y : Bytes) :
    matchLetters w (x ++ y) = some x.length := by
  induction w generalizing x with
  | nil =>
    rw [hx.eq_nil h]
    rfl
  | cons a w ih =>
    obtain ⟨b, c, r, rfl, hb, hc, hupper, hr, htight⟩ := hx.exists_cons h
    obtain ⟨hblanks, hdrop⟩ := drop_blanks_append hb hc (r ++ y)
    rw [List.append_assoc, List.cons_append, matchLetters, hdrop, hblanks]
    simp only [hupper, beq_self_eq_true, if_true, ih htight hr, Option.map_some,
      List.length_append, List.length_cons, Option.some.injEq]
    omega

theorem exists_of_matchLetters {w s : Bytes} {n : Nat} (h : matchLetters w s = some n) :
    ∃ x y, s = x ++ y ∧ x.length = n ∧ Tight x ∧ squeeze x = w := by
  induction w generalizing s n with
  | nil =>
    obtain rfl := Option.some.inj h
    exact ⟨[], s, rfl, rfl, tight_nil, rfl⟩
  | cons a w ih =>
    rw [matchLetters] at h
    split at h
    · cases h
    · next c r hdrop =>
      split at h
      · next hupper =>
        obtain ⟨k, hk, rfl⟩ := Option.map_eq_some_iff.mp h
        obtain ⟨x, y, rfl, rfl, hx, rfl⟩ := ih hk
        have hc := isBlank_of_drop_blanks hdrop
        obtain ⟨b, hs, hlength, hb⟩ := eq_append_of_drop_blanks hdrop
        refine ⟨b ++ c :: x, y, by simpa using hs, ?_, ?_, ?_⟩
        · rw [List.length_append, List.length_cons, hlength]
          omega
        · rw [tight_append (by simp), tight_cons_iff hc]
          exact hx
        · rw [squeeze_append, squeeze_of_isBlank hb, squeeze_cons hc, beq_iff_eq.mp hupper]
          rfl
      · cases h

theorem matchLetters_isSome {w s : Bytes} (h : w <+: squeeze s) : (matchLetters w s).isSome := by
  induction w generalizing s with
  | nil => rfl
  | cons a w ih =>
    rw [← squeeze_dropWhile, ← drop_blanks] at h
    rw [matchLetters]
    split
    · next hdrop =>
      rw [hdrop] at h
      exact absurd (List.prefix_nil.mp h) (by simp)
    · next c r hdrop =>
      rw [hdrop, squeeze_cons (isBlank_of_drop_blanks hdrop), List.cons_prefix_cons] at h
      rw [if_pos (by simp [h.1]), Option.isSome_map]
      exact ih h.2

/-! ### Words -/

theorem mem_words (w : Word) : (w.spelling, w) ∈ words := by
  cases w with
  | plain k => cases k <;> decide
  | rem => decide
  | data => decide

theorem eq_of_mem_words {w : Word} {spelling : Bytes} (h : (spelling, w) ∈ words) :
    spelling = w.spelling := by
  obtain ⟨w', -, hw'⟩ := List.mem_map.mp h
  cases hw'
  rfl

theorem isSpelling_spelling (w : Word) : IsSpelling w.spelling := by
  have h : (words.all fun p => p.1.all fun c =>
      Byte.isLetter c && Byte.upper c == c && !Byte.isBlank c) = true := by decide +kernel
  simp only [List.all_eq_true, Bool.and_eq_true, beq_iff_eq, Bool.not_eq_true', and_assoc] at h
  exact h _ (mem_words w)

theorem spelling_ne_nil (w : Word) : w.spelling ≠ [] := by
  have h : ∀ p ∈ words, p.1 ≠ [] := by decide
  exact h _ (mem_words w)

/-- No word is the beginning of another. -/
theorem eq_of_prefix_spelling {w w' : Word} (h : w.spelling <+: w'.spelling) : w = w' := by
  have hall : ∀ p ∈ words, ∀ q ∈ words, p.1.isPrefixOf q.1 = true → p.2 = q.2 := by decide +kernel
  exact hall _ (mem_words w) _ (mem_words w') (List.isPrefixOf_iff_prefix.mpr h)

theorem spelling_unique {w w' : Word} {t : Bytes} (h : w.spelling <+: t)
    (h' : w'.spelling <+: t) : w = w' := by
  rcases List.prefix_or_prefix_of_prefix h h' with hle | hle
  · exact eq_of_prefix_spelling hle
  · exact (eq_of_prefix_spelling hle).symm

theorem matchWord_cons {a c : UInt8} {w s : Bytes} {n : Nat}
    (h : matchWord (a :: w) (c :: s) = some n) : Byte.upper c = a ∧ matchLetters w s = some n := by
  rw [matchWord] at h
  split at h
  · next hc => exact ⟨by simpa using hc, h⟩
  · cases h

theorem matchWord_of_keyword? {s : Bytes} {w : Word} {n : Nat} (h : keyword? s = some (w, n)) :
    matchWord w.spelling s = some n := by
  obtain ⟨⟨spelling, w'⟩, hmem, hmatch⟩ := List.exists_of_findSome?_eq_some h
  obtain ⟨k, hk, hpair⟩ := Option.map_eq_some_iff.mp hmatch
  cases hpair
  rwa [← eq_of_mem_words hmem]

/-- A word that is found takes a tight text that squeezes to its spelling. -/
theorem exists_of_keyword? {c : UInt8} (hc : Byte.isBlank c = false) {s : Bytes} {w : Word}
    {n : Nat} (h : keyword? (c :: s) = some (w, n)) :
    ∃ x y, s = x ++ y ∧ x.length = n ∧ Tight x ∧ squeeze (c :: x) = w.spelling := by
  obtain ⟨a, r, hspelling⟩ := List.exists_cons_of_ne_nil (spelling_ne_nil w)
  have hmatch := matchWord_of_keyword? h
  rw [hspelling] at hmatch ⊢
  obtain ⟨hupper, hletters⟩ := matchWord_cons hmatch
  obtain ⟨x, y, hs, hlength, hx, hsqueeze⟩ := exists_of_matchLetters hletters
  exact ⟨x, y, hs, hlength, hx, by rw [squeeze_cons hc, hupper, hsqueeze]⟩

/-- A word that is found is taken from the front of the squeezed text. -/
theorem keyword?_eq_some {c : UInt8} (hc : Byte.isBlank c = false) {s : Bytes} {w : Word} {n : Nat}
    (h : keyword? (c :: s) = some (w, n)) :
    squeeze (c :: s) = w.spelling ++ squeeze (s.drop n) := by
  obtain ⟨x, y, rfl, rfl, -, hspelling⟩ := exists_of_keyword? hc h
  rw [← List.cons_append, squeeze_append, hspelling, List.drop_left]

/-- A word at the front of the squeezed text is found. -/
theorem exists_keyword?_eq {c : UInt8} (hc : Byte.isBlank c = false) {s : Bytes} {w : Word}
    (h : w.spelling <+: squeeze (c :: s)) : ∃ n, keyword? (c :: s) = some (w, n) := by
  have hmatch : (matchWord w.spelling (c :: s)).isSome := by
    obtain ⟨a, r, hspelling⟩ := List.exists_cons_of_ne_nil (spelling_ne_nil w)
    rw [hspelling, squeeze_cons hc, List.cons_prefix_cons] at h
    rw [hspelling, matchWord, if_pos (by simp [h.1])]
    exact matchLetters_isSome h.2
  have hsome : (keyword? (c :: s)).isSome := by
    rw [keyword?, List.findSome?_isSome_iff]
    exact ⟨_, mem_words w, by simpa using hmatch⟩
  obtain ⟨⟨w', n⟩, hkeyword⟩ := Option.isSome_iff_exists.mp hsome
  have hw' : w'.spelling <+: squeeze (c :: s) := ⟨_, (keyword?_eq_some hc hkeyword).symm⟩
  rw [spelling_unique h hw']
  exact ⟨n, hkeyword⟩

theorem keyword?_isSome_iff {c : UInt8} (hc : Byte.isBlank c = false) {s : Bytes} :
    (keyword? (c :: s)).isSome ↔ ∃ w : Word, w.spelling <+: squeeze (c :: s) := by
  constructor
  · intro h
    obtain ⟨⟨w, n⟩, hkeyword⟩ := Option.isSome_iff_exists.mp h
    exact ⟨w, _, (keyword?_eq_some hc hkeyword).symm⟩
  · rintro ⟨w, hw⟩
    obtain ⟨n, hkeyword⟩ := exists_keyword?_eq hc hw
    rw [hkeyword]
    rfl

/-- A word takes a tight text that squeezes to its spelling. -/
theorem keyword?_append {c : UInt8} (hc : Byte.isBlank c = false) {x : Bytes} (hx : Tight x)
    {w : Word} (h : squeeze (c :: x) = w.spelling) (y : Bytes) :
    keyword? (c :: (x ++ y)) = some (w, x.length) := by
  obtain ⟨n, hn⟩ : ∃ n, keyword? (c :: (x ++ y)) = some (w, n) := by
    refine exists_keyword?_eq hc ⟨squeeze y, ?_⟩
    rw [← h, ← squeeze_append, List.cons_append]
  have hmatch := matchWord_of_keyword? hn
  rw [← h, squeeze_cons hc] at hmatch
  have hletters := (matchWord_cons hmatch).2
  rw [matchLetters_append hx rfl] at hletters
  rw [hn, Option.some.inj hletters]

/-- A word is found at its spelling, and takes no more than that. -/
theorem keyword?_spelling (w : Word) (p : Bytes) :
    keyword? (w.spelling ++ p) = some (w, w.spelling.length - 1) := by
  have hspelling := isSpelling_spelling w
  obtain ⟨a, r, heq⟩ := List.exists_cons_of_ne_nil (spelling_ne_nil w)
  have hsqueeze : squeeze (a :: r) = w.spelling := by rw [← heq, hspelling.squeeze]
  have hr : Tight r := fun c hc => (hspelling c (by simp [heq, List.mem_of_getLast? hc])).2.2
  rw [heq, List.cons_append, List.length_cons, Nat.add_sub_cancel]
  exact keyword?_append (hspelling a (by simp [heq])).2.2 hr hsqueeze p

/-- Words start with a letter. -/
theorem keyword?_eq_none {c : UInt8} (hc : Byte.isBlank c = false)
    (hletter : Byte.isLetter (Byte.upper c) = false) (s : Bytes) : keyword? (c :: s) = none := by
  rw [← Option.not_isSome_iff_eq_none, keyword?_isSome_iff hc]
  rintro ⟨w, hw⟩
  obtain ⟨a, r, heq⟩ := List.exists_cons_of_ne_nil (spelling_ne_nil w)
  rw [heq, squeeze_cons hc, List.cons_prefix_cons] at hw
  rw [← hw.1, (isSpelling_spelling w a (by simp [heq])).1] at hletter
  cases hletter

/-! ### Texts that are alike for words -/

/-- The same words stand at the starts of both texts, whatever is put in front of them. -/
def Alike (s p : Bytes) : Prop :=
  ∀ (u : Bytes) (w : Word), w.spelling <+: u ++ squeeze s ↔ w.spelling <+: u ++ squeeze p

theorem alike_of_eq {s p : Bytes} (h : squeeze s = squeeze p) : Alike s p := by
  intro u w
  rw [h]

theorem alike_append {s s' p p' t : Bytes} (hs : squeeze s = t ++ squeeze s')
    (hp : squeeze p = t ++ squeeze p') (h : Alike s' p') : Alike s p := by
  intro u w
  rw [hs, hp, ← List.append_assoc, ← List.append_assoc]
  exact h (u ++ t) w

/-- The same words are found in texts that are alike. -/
theorem Alike.keyword? {c d : UInt8} (hc : Byte.isBlank c = false) (hd : Byte.isBlank d = false)
    {s p : Bytes} (h : Alike (c :: s) (d :: p)) :
    (keyword? (c :: s)).isSome ↔ (keyword? (d :: p)).isSome := by
  rw [keyword?_isSome_iff hc, keyword?_isSome_iff hd]
  exact exists_congr fun w => h [] w

theorem prefix_append_cases {w u x : Bytes} (h : w <+: u ++ x) :
    w <+: u ∨ ∃ z, w = u ++ z ∧ z <+: x := by
  obtain ⟨t, ht⟩ := h
  rcases List.append_eq_append_iff.mp ht with ⟨z, rfl, -⟩ | ⟨z, rfl, rfl⟩
  · exact .inl (List.prefix_append w z)
  · exact .inr ⟨z, rfl, List.prefix_append z t⟩

/-- No word starts or goes on here. -/
def Stops (s : Bytes) : Prop :=
  ∀ c ∈ (squeeze s).head?, Byte.isLetter c = false

/-- A word reaches no further than a byte that is no letter. -/
theorem Stops.prefix_iff {s : Bytes} (h : Stops s) (u : Bytes) (w : Word) :
    w.spelling <+: u ++ squeeze s ↔ w.spelling <+: u := by
  refine ⟨fun hw => ?_, fun hw => hw.trans (List.prefix_append u _)⟩
  rcases prefix_append_cases hw with hw | ⟨z, hz, hprefix⟩
  · exact hw
  · cases z with
    | nil => simp [hz]
    | cons a z =>
      obtain ⟨t, ht⟩ := hprefix
      have hletter := (isSpelling_spelling w a (by simp [hz])).1
      rw [h a (by simp [← ht])] at hletter
      cases hletter

theorem alike_of_stops {s p : Bytes} (hs : Stops s) (hp : Stops p) : Alike s p := by
  intro u w
  rw [hs.prefix_iff, hp.prefix_iff]

/-- No word goes on after `DATA`. -/
theorem spelling_data_append {u z : Bytes} {w : Word} (h : w.spelling = u ++ utf8 "DATA" ++ z) :
    z = [] := by
  have hall : ∀ p ∈ words, ∀ i ∈ List.range p.1.length,
      (utf8 "DATA").isPrefixOf (p.1.drop i) = true → p.1.drop (i + 4) = [] := by decide +kernel
  have hdrop : w.spelling.drop u.length = utf8 "DATA" ++ z := by
    rw [h, List.append_assoc, List.drop_left]
  have hlength : u.length < w.spelling.length := by
    have : (utf8 "DATA").length = 4 := by decide
    rw [h, List.length_append, List.length_append]
    omega
  have hnil := hall _ (mem_words w) u.length (List.mem_range.mpr hlength)
    (by rw [hdrop, List.isPrefixOf_iff_prefix]; exact List.prefix_append _ _)
  rw [← List.drop_drop, hdrop] at hnil
  exact hnil

theorem alike_data {s p x y : Bytes} (hs : squeeze s = utf8 "DATA" ++ x)
    (hp : squeeze p = utf8 "DATA" ++ y) : Alike s p := by
  have hword : ∀ (u : Bytes) (w : Word) (x : Bytes),
      w.spelling <+: u ++ (utf8 "DATA" ++ x) ↔ w.spelling <+: u ++ utf8 "DATA" := by
    intro u w x
    rw [← List.append_assoc]
    refine ⟨fun hw => ?_, fun hw => hw.trans (List.prefix_append _ _)⟩
    rcases prefix_append_cases hw with hw | ⟨z, hz, -⟩
    · exact hw
    · simp [hz, spelling_data_append hz]
  intro u w
  rw [hs, hp, hword, hword]

end LineBasic.Lexer
