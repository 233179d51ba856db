import LineBasic.Proofs.Token.Name

/-!
# Reading listed tokens back

Tokens are listed with a single space in front of each. Reading the list back gives the same tokens
with two exceptions: a number behind a name that does not end in `$` is taken into the name, since
it is listed with a digit first, and a data string that starts with a quote loses it. Everything
else is read back because the listed text is alike for words, and because the first byte of each
listed token says as much about where the token before it ends as the byte that it was read from.

## Main definitions

* `Token.listingAll` — tokens as they are listed behind a line number
* `Token.relists` — whether a token is read back in front of others
* `Token.relistable` — whether all tokens of a line are
* `Token.SameAll` — tokens that are the same one by one

## Main results

* `Lexer.alike_listingAll` — a text and its listed tokens are alike for words
* `Lexer.ReadsBack.scans_iff` — reading one listed token back
* `Lexer.sameAll_iff_relistable` — tokens are read back exactly if they are relistable
* `Lexer.data_listing_reads_back` — data by themselves are read back
-/

namespace LineBasic

open Command (squeeze)

namespace Token

/-- Tokens as they are listed behind a line number. -/
def listingAll (ts : List Token) : Bytes :=
  ts.flatMap fun t => 0x20 :: t.listing

@[simp] theorem listingAll_nil : listingAll [] = [] := rfl

theorem listingAll_cons (t : Token) (ts : List Token) :
    listingAll (t :: ts) = 0x20 :: (t.listing ++ listingAll ts) := by
  simp [listingAll]

/-- Whether a listed token is read back in front of others: a name must not be followed by a number
unless it ends in `$`, and no data string may start with a quote. -/
def relists : Token → List Token → Bool
  | .symbol name, .number _ :: _ => name.isString
  | .data values, _ => values.all fun v => !Field.startsWithQuote v
  | _, _ => true

/-- Whether all tokens of a line are read back. -/
def relistable : List Token → Bool
  | [] => true
  | t :: ts => t.relists ts && relistable ts

/-- Tokens that are the same one by one. -/
abbrev SameAll : List Token → List Token → Prop :=
  List.Forall₂ fun t u => t.same u = true

end Token

open Token

namespace Lexer

/-! ### Scanning -/

theorem scans_blank_iff {c : UInt8} (hc : Byte.isBlank c = true) {s : Bytes} {ts : List Token} :
    Scans (c :: s) ts ↔ Scans s ts := by
  refine ⟨fun h => ?_, .blank hc⟩
  cases h with
  | blank _ h => exact h
  | token hc' => rw [hc] at hc'; cases hc'

theorem Reads.unique {c : UInt8} (hc : Byte.isBlank c = false) {s : Bytes} {t u : Token} {m n : Nat}
    (ht : Reads c s t m) (hu : Reads c s u n) : t = u ∧ m = n := by
  have h := (lexeme_of_reads hc ht).symm.trans (lexeme_of_reads hc hu)
  cases h
  exact ⟨rfl, rfl⟩

theorem scans_cons_iff {c : UInt8} (hc : Byte.isBlank c = false) {s : Bytes} {t : Token} {n : Nat}
    (ht : Reads c s t n) {us : List Token} :
    Scans (c :: s) us ↔ ∃ ts, us = t :: ts ∧ Scans (s.drop n) ts := by
  constructor
  · intro h
    cases h with
    | blank hc' => rw [hc] at hc'; cases hc'
    | token _ hu h =>
      obtain ⟨rfl, rfl⟩ := ht.unique hc hu
      exact ⟨_, rfl, h⟩
  · rintro ⟨ts, rfl, h⟩
    exact .token hc ht h

theorem Scans.unique {s : Bytes} {ts us : List Token} (h : Scans s ts) (h' : Scans s us) :
    ts = us := by
  rw [← read_eq_ok_iff] at h h'
  cases h.symm.trans h'
  rfl

/-- A text with tokens is blanks and the first of them. -/
theorem exists_reads {s : Bytes} {t : Token} {ts : List Token} (h : Scans s (t :: ts)) :
    ∃ c r n, s.drop (blanks s) = c :: r ∧ Byte.isBlank c = false ∧ Reads c r t n := by
  generalize hus : t :: ts = us at h
  induction h with
  | nil => cases hus
  | @blank c s us hc h ih =>
    obtain ⟨d, r, n, hdrop, hd, ht⟩ := ih hus
    refine ⟨d, r, n, ?_, hd, ht⟩
    rw [drop_blanks] at hdrop ⊢
    rw [List.dropWhile_cons_of_pos hc, hdrop]
  | @token c s u n us hc hu h ih =>
    cases hus
    exact ⟨c, s, n, by rw [blanks_cons hc]; rfl, hc, hu⟩

/-! ### First bytes -/

theorem isLetter_of_keyword? {c : UInt8} (hc : Byte.isBlank c = false) {s : Bytes} {w : Word}
    {n : Nat} (h : keyword? (c :: s) = some (w, n)) :
    ∃ r, w.spelling = Byte.upper c :: r ∧ Byte.isLetter c = true := by
  obtain ⟨a, r, heq⟩ := List.exists_cons_of_ne_nil (spelling_ne_nil w)
  have hsqueeze := keyword?_eq_some hc h
  rw [squeeze_cons hc, heq, List.cons_append, List.cons.injEq] at hsqueeze
  have hletter := (isSpelling_spelling w a (by simp [heq])).1
  rw [← hsqueeze.1, isLetter_upper] at hletter
  exact ⟨r, by rw [heq, hsqueeze.1], hletter⟩

/-- A mark is listed from the byte it was read from on. -/
theorem spelling_markTail {c : UInt8} {m : Mark} (h : mark? c = some m) (s : Bytes) :
    ∃ r, (markTail m s).1.spelling = c :: r := by
  rcases markTail_cases m s with ⟨hs, -⟩ | ⟨b, d, r, m', rfl, hb, hjoined⟩
  · rw [hs]
    exact ⟨[], spelling_of_mark? h⟩
  · rw [markTail_append hb hjoined, (joined?_eq_some hjoined).1, spelling_of_mark? h]
    exact ⟨[d], rfl⟩

/-- What is read from a byte of a number is finite and has no minus, so it is listed with a digit
first. -/
theorem write_of_number {c : UInt8} (hc : isNumberByte c = true) {s : Bytes} {x : Float}
    (h : Number.read? (c :: s) = some x) :
    ∃ d r, Number.write x = d :: r ∧ Byte.isDigit d = true ∧ (∀ b ∈ r, isNumberByte b = true) ∧
      Number.read? (d :: r) = some x := by
  have hfinite := Number.isFinite_of_read? h
  have hsign : (c :: s).head? ≠ some 0x2d := by
    rintro ⟨rfl⟩
    cases hc
  obtain ⟨d, r, hwrite, -, hdigit, hr⟩ := Number.write_bytes hfinite
  refine ⟨d, r, hwrite, hdigit (Number.signOf_of_read? hsign h), fun b hb => ?_, ?_⟩
  · rw [isNumberByte, Bool.or_eq_true, beq_iff_eq]
    exact hr b hb
  · rw [← hwrite, Number.read?_write hfinite]

/-- The first byte of a listed token: the one it was read from, in upper case if it is a letter, or
the first digit of a number. -/
theorem listing_head {c : UInt8} (hc : Byte.isBlank c = false) {s : Bytes} {t : Token} {n : Nat}
    (h : Reads c s t n) :
    ∃ d r, t.listing = d :: r ∧ Byte.isBlank d = false ∧
      ((Byte.isLetter c = true ∧ d = Byte.upper c) ∨
        (Byte.isDigit d = true ∧ ∃ x, t = .number x) ∨ (isOther c = true ∧ d = c)) := by
  have hupper : Byte.isLetter c = true → Byte.isBlank (Byte.upper c) = false :=
    fun hletter => isBlank_of_isLetter (by rw [isLetter_upper, hletter])
  cases h with
  | keyword h =>
    obtain ⟨r, hspelling, hletter⟩ := isLetter_of_keyword? hc h
    exact ⟨_, r, hspelling, hupper hletter, .inl ⟨hletter, rfl⟩⟩
  | remark h =>
    obtain ⟨r, hspelling, hletter⟩ := isLetter_of_keyword? hc h
    exact ⟨_, _, congrArg (· ++ _) hspelling, hupper hletter, .inl ⟨hletter, rfl⟩⟩
  | data h =>
    obtain ⟨r, hspelling, hletter⟩ := isLetter_of_keyword? hc h
    -- a word has the byte it was read from as its first letter
    have hdata : Byte.upper c = 0x44 := by
      have := congrArg List.head? hspelling
      exact (Option.some.inj this).symm
    exact ⟨_, _, rfl, by decide, .inl ⟨hletter, hdata.symm⟩⟩
  | symbol h hletter => exact ⟨_, _, rfl, hupper hletter, .inl ⟨hletter, rfl⟩⟩
  | number hnumber h =>
    obtain ⟨d, r, hwrite, hdigit, -, -⟩ := write_of_number hnumber h
    have hd : isNumberByte d = true := by rw [isNumberByte, hdigit]; rfl
    exact ⟨d, r, hwrite, (isNumberByte_bytes hd).2.1, .inr (.inl ⟨hdigit, _, rfl⟩)⟩
  | string hquote hs h =>
    subst hquote
    exact ⟨_, _, rfl, hc, .inr (.inr ⟨isOther_quote, rfl⟩)⟩
  | mark h =>
    obtain ⟨r, hspelling⟩ := spelling_markTail h s
    exact ⟨c, r, hspelling, hc, .inr (.inr ⟨(isOther_of_mark? (by rw [h]; rfl)).1, rfl⟩)⟩

/-! ### Words -/

theorem isLetter_of_isDigit {c : UInt8} (hc : Byte.isDigit c = true) : Byte.isLetter c = false :=
  (isNumberByte_bytes (by rw [isNumberByte, hc]; rfl)).1

/-- A token and what follows it are alike for words with the listed token and what follows that. -/
theorem Reads.alike {c : UInt8} (hc : Byte.isBlank c = false) {s : Bytes} {t : Token} {n : Nat}
    (h : Reads c s t n) {p : Bytes} (hp : Alike (s.drop n) p) (hend : s.drop n = [] → p = []) :
    Alike (c :: s) (t.listing ++ p) := by
  have hhead := listing_head hc h
  cases h with
  | @keyword k n h =>
    refine alike_append (keyword?_eq_some hc h) ?_ hp
    rw [squeeze_append]
    exact congrArg (· ++ squeeze p) (isSpelling_spelling (.plain k)).squeeze
  | remark h =>
    rw [hend (List.drop_length ..), List.append_nil]
    apply alike_of_eq
    rw [keyword?_eq_some hc h, Token.listing, squeeze_append]
    rfl
  | data h => exact alike_data (keyword?_eq_some hc h) (squeeze_append _ _)
  | symbol h hletter =>
    have hname : isNameByte c = true := by rw [isNameByte, hletter]; rfl
    obtain ⟨-, hblank, hupper, -⟩ := isNameByte_upper hname
    refine alike_append (t := Byte.upper c :: (nameTail s).1) ?_ ?_ hp
    · rw [squeeze_cons hc, List.cons_append, ← squeeze_nameTail s]
    · rw [Token.listing, squeeze_append, squeeze_cons hblank, hupper, squeeze_name]
  | number hnumber h =>
    obtain ⟨d, r, hlisting, hd, hcases⟩ := hhead
    have hletter := (isNumberByte_bytes hnumber).1
    rw [hlisting]
    refine alike_of_stops (stops_cons hc hletter s) (stops_cons hd ?_ _)
    rcases hcases with ⟨hc', -⟩ | ⟨hdigit, -⟩ | ⟨-, rfl⟩
    · rw [hletter] at hc'; cases hc'
    · exact isLetter_of_isDigit hdigit
    · exact hletter
  | string hquote hs h =>
    subst hquote
    exact alike_of_stops (stops_cons hc rfl s) (stops_cons hc rfl _)
  | mark h =>
    obtain ⟨r, hspelling⟩ := spelling_markTail h s
    have hletter := isLetter_of_isOther (isOther_of_mark? (c := c) (by rw [h]; rfl)).1
    rw [Token.listing, hspelling]
    exact alike_of_stops (stops_cons hc hletter s) (stops_cons hc hletter _)

theorem eq_nil_of_scans_nil {ts : List Token} (h : Scans [] ts) : ts = [] := by
  cases h
  rfl

/-- A text and its listed tokens are alike for words. -/
theorem alike_listingAll {s : Bytes} {ts : List Token} (h : Scans s ts) :
    Alike s (listingAll ts) := by
  induction h with
  | nil => exact alike_of_eq rfl
  | @blank c s ts hc h ih =>
    intro u w
    rw [squeeze_blank hc]
    exact ih u w
  | @token c s t n ts hc ht h ih =>
    have hend : s.drop n = [] → listingAll ts = [] := by
      intro hnil
      rw [hnil] at h
      rw [eq_nil_of_scans_nil h, listingAll_nil]
    intro u w
    rw [listingAll_cons, squeeze_blank (c := 0x20) rfl]
    exact ht.alike hc ih hend u w

/-! ### Reading one token back -/

/-- What follows a listed token: nothing, or a space and the next one. -/
theorem listingAll_eq (ts : List Token) : listingAll ts = [] ∨ ∃ q, listingAll ts = 0x20 :: q := by
  cases ts with
  | nil => exact .inl rfl
  | cons t ts => exact .inr ⟨_, listingAll_cons t ts⟩

/-- The first byte of listed tokens behind their space. -/
theorem drop_blanks_listingAll {s : Bytes} {t : Token} {ts : List Token} (h : Scans s (t :: ts)) :
    ∃ c r d q, s.drop (blanks s) = c :: r ∧ Byte.isBlank c = false ∧
      (listingAll (t :: ts)).drop (blanks (listingAll (t :: ts))) = d :: q ∧
      Byte.isBlank d = false ∧
      ((Byte.isLetter c = true ∧ d = Byte.upper c) ∨
        (Byte.isDigit d = true ∧ ∃ x, t = .number x) ∨ (isOther c = true ∧ d = c)) := by
  obtain ⟨c, r, n, hdrop, hc, ht⟩ := exists_reads h
  obtain ⟨d, q, hlisting, hd, hcases⟩ := listing_head hc ht
  refine ⟨c, r, d, q ++ listingAll ts, hdrop, hc, ?_, hd, hcases⟩
  rw [drop_blanks, listingAll_cons, hlisting, List.dropWhile_cons_of_pos (by decide),
    List.cons_append, List.dropWhile_cons_of_neg (by simp [hd])]

/-- A mark is not joined with what is listed behind it if it was not joined before. -/
theorem markTail_listingAll {m : Mark} {s : Bytes} {ts : List Token} (h : Scans s ts)
    (hs : markTail m s = (m, 0)) : markTail m (listingAll ts) = (m, 0) := by
  cases ts with
  | nil => rfl
  | cons t ts =>
    obtain ⟨c, r, d, q, hdrop, -, hdrop', -, hcases⟩ := drop_blanks_listingAll h
    -- the byte behind the mark is not one that it is joined with
    have hjoined : joined? m c = none := by
      rw [markTail, hdrop] at hs
      simp only at hs
      split at hs
      · exact absurd (congrArg Prod.snd hs) (by simp)
      · assumption
    rw [markTail, hdrop']
    simp only
    cases hd : joined? m d with
    | none => rfl
    | some m' =>
      obtain ⟨-, hother⟩ := joined?_eq_some hd
      rcases hcases with ⟨hletter, rfl⟩ | ⟨hdigit, -⟩ | ⟨-, rfl⟩
      · rw [← isLetter_upper, isLetter_of_isOther hother] at hletter
        cases hletter
      · simp [isOther, hdigit] at hother
      · rw [hjoined] at hd
        cases hd

/-- A name does not go on with what is listed behind it if it did not go on before, unless that is
a number. -/
theorem nameTail_listingAll {s : Bytes} {ts : List Token} (h : Scans s ts)
    (hs : nameTail s = ([], 0)) (hnumber : ∀ x us, ts ≠ .number x :: us) :
    nameTail (listingAll ts) = ([], 0) := by
  cases ts with
  | nil => exact nameTail_nil rfl
  | cons t ts =>
    obtain ⟨c, r, d, q, hdrop, hc, hdrop', hd, hcases⟩ := drop_blanks_listingAll h
    rw [nameTail_cons hdrop']
    rcases hcases with ⟨hletter, rfl⟩ | ⟨-, x, rfl⟩ | ⟨hother, rfl⟩
    · -- a word stood here, and stands here again
      have hword : (keyword? (c :: r)).isSome := by
        by_contra hnone
        rw [nameTail_cons hdrop, if_neg hnone, if_pos (by simp [isNameByte, hletter])] at hs
        cases hs
      have halike : Alike (c :: r) (Byte.upper c :: q) := by
        intro u w
        have h := alike_listingAll h u w
        rwa [← squeeze_dropWhile s, ← drop_blanks, hdrop, ← squeeze_dropWhile (listingAll _),
          ← drop_blanks, hdrop'] at h
      rw [if_pos ((halike.keyword? hc hd).mp hword)]
    · exact absurd rfl (hnumber x ts)
    · rw [keyword?_of_not_letter hc (isLetter_of_isOther hother)]
      simp only [isOther, Bool.and_eq_true, Bool.not_eq_true', bne_iff_ne] at hother
      simp [isNameByte, hother]

/-- A listed token is read back in front of the text `p`, and reading goes on with `p`. -/
def ReadsBack (t : Token) (p : Bytes) : Prop :=
  ∃ d r n, t.listing ++ p = d :: r ∧ Byte.isBlank d = false ∧ Reads d r t n ∧
    ∀ us, Scans (r.drop n) us ↔ Scans p us

theorem ReadsBack.scans_iff {t : Token} {p : Bytes} (h : ReadsBack t p) {us : List Token} :
    Scans (0x20 :: (t.listing ++ p)) us ↔ ∃ ts, us = t :: ts ∧ Scans p ts := by
  obtain ⟨d, r, n, heq, hd, ht, hrest⟩ := h
  rw [scans_blank_iff (c := 0x20) rfl, heq, scans_cons_iff hd ht]
  simp only [hrest]

theorem keyword?_word (w : Word) (p : Bytes) :
    ∃ d r, w.spelling = d :: r ∧ Byte.isBlank d = false ∧
      keyword? (d :: (r ++ p)) = some (w, r.length) := by
  obtain ⟨d, r, heq⟩ := List.exists_cons_of_ne_nil (spelling_ne_nil w)
  have h := keyword?_spelling w p
  rw [heq] at h
  exact ⟨d, r, heq, (isSpelling_spelling w d (by simp [heq])).2.2, h⟩

theorem readsBack_keyword (k : Keyword) (p : Bytes) : ReadsBack (.keyword k) p := by
  obtain ⟨d, r, heq, hd, hk⟩ := keyword?_word (.plain k) p
  refine ⟨d, r ++ p, r.length, ?_, hd, .keyword hk, fun us => by rw [List.drop_left]⟩
  rw [← List.cons_append, ← heq]
  rfl

theorem readsBack_remark (s : Bytes) : ReadsBack (.remark s) [] := by
  obtain ⟨d, r, heq, hd, hk⟩ := keyword?_word .rem s
  have hlisting : (Token.remark s).listing ++ [] = d :: (r ++ s) := by
    rw [← List.cons_append, ← heq, List.append_nil]
    rfl
  refine ⟨d, r ++ s, (r ++ s).length, hlisting, hd, ?_, fun us => by rw [List.drop_length]⟩
  have h : Reads d (r ++ s) (.remark ((r ++ s).drop r.length)) (r ++ s).length := .remark hk
  rwa [List.drop_left] at h

/-- Listed tokens start with a space. -/
theorem isNumberByte_head?_listingAll (ts : List Token) :
    ∀ b ∈ (listingAll ts).head?, isNumberByte b = false := by
  intro b hb
  rcases listingAll_eq ts with hp | ⟨q, hp⟩
  · rw [hp] at hb
    cases hb
  · rw [hp] at hb
    cases hb
    rfl

/-- The bytes of a number end where other tokens are listed behind it. -/
theorem takeWhile_listingAll {r : Bytes} (hr : ∀ b ∈ r, isNumberByte b = true) (ts : List Token) :
    (r ++ listingAll ts).takeWhile isNumberByte = r :=
  takeWhile_number hr (isNumberByte_head?_listingAll ts)

theorem readsBack_number {c : UInt8} (hc : isNumberByte c = true) {s : Bytes} {x : Float}
    (h : Number.read? (c :: s) = some x) (ts : List Token) :
    ReadsBack (.number x) (listingAll ts) := by
  obtain ⟨d, r, hwrite, hdigit, hr, hread⟩ := write_of_number hc h
  have hd : isNumberByte d = true := by rw [isNumberByte, hdigit]; rfl
  have htake := takeWhile_listingAll hr ts
  have hreads : Reads d (r ++ listingAll ts) (.number x)
      ((r ++ listingAll ts).takeWhile isNumberByte).length := .number hd (by rw [htake, hread])
  rw [htake] at hreads
  refine ⟨d, r ++ listingAll ts, r.length, ?_, (isNumberByte_bytes hd).2.1, hreads,
    fun us => by rw [List.drop_left]⟩
  rw [Token.listing, hwrite, List.cons_append]

theorem readsBack_string {inner : Bytes} (h : Byte.quote ∉ inner) (p : Bytes) :
    ReadsBack (.string inner) p := by
  refine ⟨Byte.quote, inner ++ Byte.quote :: p, inner.length + 1, ?_, rfl, .string rfl rfl h,
    fun us => ?_⟩
  · simp [Token.listing]
  · rw [← List.drop_drop, List.drop_left, List.drop_succ_cons, List.drop_zero]

theorem readsBack_mark {c : UInt8} (hc : Byte.isBlank c = false) {m : Mark} (h : mark? c = some m)
    {s : Bytes} {ts : List Token} (hscan : Scans (s.drop (markTail m s).2) ts) :
    ReadsBack (.mark (markTail m s).1) (listingAll ts) := by
  rcases markTail_cases m s with ⟨hs, -⟩ | ⟨b, d, r, m', rfl, hb, hjoined⟩
  · rw [hs] at hscan ⊢
    have hreads : Reads c (listingAll ts) (.mark (markTail m (listingAll ts)).1)
        (markTail m (listingAll ts)).2 := .mark h
    rw [markTail_listingAll hscan hs] at hreads
    refine ⟨c, listingAll ts, 0, ?_, hc, hreads, fun us => by rw [List.drop_zero]⟩
    rw [Token.listing, spelling_of_mark? h, List.singleton_append]
  · -- the byte that the mark was joined with is listed right behind it
    have htail : markTail m (d :: listingAll ts) = (m', 1) :=
      markTail_append (b := []) (by simp) hjoined _
    have hreads : Reads c (d :: listingAll ts) (.mark (markTail m (d :: listingAll ts)).1)
        (markTail m (d :: listingAll ts)).2 := .mark h
    rw [htail] at hreads
    rw [markTail_append hb hjoined]
    refine ⟨c, d :: listingAll ts, 1, ?_, hc, hreads, fun us => Iff.rfl⟩
    rw [Token.listing, (joined?_eq_some hjoined).1, spelling_of_mark? h]
    rfl

/-- A name in front of listed tokens is read as the name, or as one that goes on. -/
theorem reads_symbol {c : UInt8} (hc : Byte.isBlank c = false) (hletter : Byte.isLetter c = true)
    {s : Bytes} (hk : keyword? (c :: s) = none) {ts : List Token}
    (hscan : Scans (s.drop (nameTail s).2) ts) :
    Byte.isBlank (Byte.upper c) = false ∧
      Reads (Byte.upper c) ((nameTail s).1 ++ listingAll ts)
        (.symbol (Byte.upper c :: (nameTail ((nameTail s).1 ++ listingAll ts)).1))
        (nameTail ((nameTail s).1 ++ listingAll ts)).2 := by
  have hname : isNameByte c = true := by rw [isNameByte, hletter]; rfl
  obtain ⟨-, hblank, hupper, -⟩ := isNameByte_upper hname
  have halike : Alike (c :: s) (Byte.upper c :: ((nameTail s).1 ++ listingAll ts)) := by
    refine alike_append (t := Byte.upper c :: (nameTail s).1) ?_ ?_ (alike_listingAll hscan)
    · rw [squeeze_cons hc, squeeze_nameTail s, List.cons_append]
    · rw [squeeze_cons hblank, hupper, squeeze_append, squeeze_name, List.cons_append]
  have hnone : keyword? (Byte.upper c :: ((nameTail s).1 ++ listingAll ts)) = none := by
    rw [← Option.not_isSome_iff_eq_none, ← halike.keyword? hc hblank, hk]
    simp
  have hreads := Reads.symbol hnone (by rw [isLetter_upper, hletter])
  rw [hupper] at hreads
  exact ⟨hblank, hreads⟩

theorem isString_symbol {c : UInt8} (hletter : Byte.isLetter c = true) (name : Bytes) :
    Name.isString (Byte.upper c :: name) = true ↔ name.getLast? = some Byte.dollar := by
  rw [Name.isString, beq_iff_eq]
  exact getLast?_upper_cons (by rw [isNameByte, hletter]; rfl) name

theorem readsBack_symbol {c : UInt8} (hc : Byte.isBlank c = false)
    (hletter : Byte.isLetter c = true) {s : Bytes} (hk : keyword? (c :: s) = none) {ts : List Token}
    (hscan : Scans (s.drop (nameTail s).2) ts)
    (hr : (Token.symbol (Byte.upper c :: (nameTail s).1)).relists ts = true) :
    ReadsBack (.symbol (Byte.upper c :: (nameTail s).1)) (listingAll ts) := by
  have hname : nameTail ((nameTail s).1 ++ listingAll ts) =
      ((nameTail s).1, (nameTail s).1.length) := by
    rw [nameTail_append (alike_listingAll hscan)]
    split
    · rfl
    · next hdollar =>
      have hstop := (nameTail_rest s).resolve_left hdollar
      rw [nameTail_listingAll hscan hstop, List.append_nil, Nat.add_zero]
      rintro x us rfl
      exact hdollar ((isString_symbol hletter _).mp hr)
  obtain ⟨hblank, hreads⟩ := reads_symbol hc hletter hk hscan
  rw [hname] at hreads
  exact ⟨_, (nameTail s).1 ++ listingAll ts, (nameTail s).1.length, rfl, hblank, hreads,
    fun us => by rw [List.drop_left]⟩

/-- What follows data ends the list of fields. -/
theorem endsList_listingAll {s : Bytes} {ts : List Token} (h : Scans (Field.remainder s) ts) :
    Field.EndsList (listingAll ts) ∧
      ∀ us, Scans ((listingAll ts).dropWhile (!Field.isSeparator ·)) us ↔
        Scans (listingAll ts) us := by
  rcases Field.remainder_eq s with hnil | ⟨r, hcolon⟩
  · rw [hnil] at h
    rw [eq_nil_of_scans_nil h]
    exact ⟨⟨.inl rfl, nofun⟩, fun us => Iff.rfl⟩
  · have hreads : Reads Byte.colon r (.mark (markTail .colon r).1) (markTail .colon r).2 :=
      .mark rfl
    rw [markTail_colon] at hreads
    rw [hcolon, scans_cons_iff rfl hreads] at h
    obtain ⟨us, rfl, -⟩ := h
    have hlisting : listingAll (.mark .colon :: us) = 0x20 :: Byte.colon :: listingAll us :=
      listingAll_cons _ _
    rw [hlisting]
    refine ⟨⟨.inr rfl, fun r hr => ?_⟩, fun us => (scans_blank_iff (c := 0x20) rfl).symm⟩
    cases hr

/-- Data in front of listed tokens. -/
theorem reads_data (vs : List Value) (ts : List Token) :
    ∃ d r n, (Token.data vs).listing ++ listingAll ts = d :: r ∧ Byte.isBlank d = false ∧
      Reads d r (.data (Field.readAll (Field.writeAll vs ++ listingAll ts)).1) n ∧
      r.drop n = Field.remainder (Field.writeAll vs ++ listingAll ts) := by
  obtain ⟨d, r, heq, hd, hk⟩ := keyword?_word .data (0x20 :: (Field.writeAll vs ++ listingAll ts))
  obtain ⟨hvalues, hremainder⟩ :=
    Field.readAll_blank (c := 0x20) rfl (Field.writeAll vs ++ listingAll ts)
  have hreads := Reads.data hk
  rw [List.drop_left, hvalues] at hreads
  refine ⟨d, _, _, ?_, hd, hreads, ?_⟩
  · rw [← List.cons_append, ← heq]
    have hspace : utf8 "DATA " = utf8 "DATA" ++ [0x20] := by decide
    simp [Token.listing, Word.spelling, hspace]
  · rw [← List.drop_drop, List.drop_left, ← hremainder]
    rfl

theorem readsBack_data {vs : List Value} (hne : vs ≠ []) (hvs : ∀ v ∈ vs, Field.Readable v)
    {s : Bytes} {ts : List Token} (hscan : Scans (Field.remainder s) ts)
    (hr : (Token.data vs).relists ts = true) : ReadsBack (.data vs) (listingAll ts) := by
  obtain ⟨hends, hrest⟩ := endsList_listingAll hscan
  have hquote : ∀ v ∈ vs, Field.startsWithQuote v = false := by
    intro v hv
    simpa using List.all_eq_true.mp hr v hv
  obtain ⟨hvalues, hremainder⟩ := Field.readAll_writeAll hne hvs hquote hends
  obtain ⟨d, r, n, heq, hd, hreads, hdrop⟩ := reads_data vs ts
  rw [hvalues] at hreads
  refine ⟨d, r, n, heq, hd, hreads, fun us => ?_⟩
  rw [hdrop, hremainder, hrest]

/-- A token is read back in front of the tokens that followed it, if it can be. -/
theorem Reads.readsBack {c : UInt8} (hc : Byte.isBlank c = false) {s : Bytes} {t : Token} {n : Nat}
    (h : Reads c s t n) {ts : List Token} (hscan : Scans (s.drop n) ts) (hr : t.relists ts = true) :
    ReadsBack t (listingAll ts) := by
  cases h with
  | keyword h => exact readsBack_keyword _ _
  | remark h =>
    rw [List.drop_length] at hscan
    rw [eq_nil_of_scans_nil hscan]
    exact readsBack_remark _
  | @data n h =>
    obtain ⟨vs, hvs⟩ := Field.readAll_eq_cons (s.drop n)
    rw [← List.drop_drop] at hscan
    exact readsBack_data (by rw [hvs]; simp) (fun v hv => Field.readable_of_mem_readAll hv) hscan hr
  | symbol h hletter => exact readsBack_symbol hc hletter h hscan hr
  | number hnumber h => exact readsBack_number hnumber h ts
  | string hquote hs h => exact readsBack_string h _
  | mark h => exact readsBack_mark hc h hscan

/-! ### Tokens that are the same -/

theorem same_data_iff {vs ws : List Value} :
    (Token.data vs).same (.data ws) = true ↔ List.Forall₂ (fun v w => v.same w = true) vs ws := by
  rw [Token.same, Bool.and_eq_true, beq_iff_eq, List.forall₂_iff_zip, List.all_eq_true]
  simp only [Prod.forall]

theorem same_symbol_iff {a b : Name} : (Token.symbol a).same (.symbol b) = true ↔ a = b := by
  simp [Token.same]

theorem same_value_self {v : Value} (hv : Field.Readable v) : v.same v = true := by
  cases v with
  | num x => exact Number.beq_self hv
  | str s => simp [Value.same]

theorem Reads.same_self {c : UInt8} {s : Bytes} {t : Token} {n : Nat} (h : Reads c s t n) :
    t.same t = true := by
  cases h with
  | data h =>
    rw [same_data_iff, List.forall₂_same]
    exact fun v hv => same_value_self (Field.readable_of_mem_readAll hv)
  | number hc h => exact Number.beq_self (Number.isFinite_of_read? h)
  | keyword h => simp [Token.same]
  | remark h => simp [Token.same]
  | symbol h hc => simp [Token.same]
  | string hc hs h => simp [Token.same]
  | mark h => simp [Token.same]

theorem exists_number_of_relists {name : Name} {ts : List Token}
    (h : (Token.symbol name).relists ts = false) :
    ∃ x us, ts = .number x :: us ∧ ¬name.isString = true := by
  unfold Token.relists at h
  split at h
  · next heq => cases heq; exact ⟨_, _, rfl, by simp [h]⟩
  · next heq => cases heq
  · cases h

/-- A name goes on with a number that is listed behind it. -/
theorem nameTail_number {s : Bytes} {x : Float} {ts : List Token} (h : Scans s (.number x :: ts)) :
    ∃ d name, (nameTail (listingAll (.number x :: ts))).1 = d :: name := by
  obtain ⟨c, r, n, -, -, hreads⟩ := exists_reads h
  cases hreads with
  | number hc h =>
    obtain ⟨d, q, hwrite, hdigit, -, -⟩ := write_of_number hc h
    have hbytes := isNumberByte_bytes (c := d) (by rw [isNumberByte, hdigit]; rfl)
    have hdrop : (listingAll (.number x :: ts)).drop (blanks (listingAll (.number x :: ts))) =
        d :: (q ++ listingAll ts) := by
      rw [drop_blanks, listingAll_cons, Token.listing, hwrite,
        List.dropWhile_cons_of_pos (by decide), List.cons_append,
        List.dropWhile_cons_of_neg (by simp [hbytes.2.1])]
    rw [nameTail_cons hdrop, keyword?_of_not_letter hbytes.2.1 hbytes.1,
      if_neg (by simp), if_pos (by simp [isNameByte, hdigit])]
    exact ⟨_, _, rfl⟩

/-- A token that cannot be read back is read as another one. -/
theorem Reads.not_same {c : UInt8} (hc : Byte.isBlank c = false) {s : Bytes} {t : Token} {n : Nat}
    (h : Reads c s t n) {ts : List Token} (hscan : Scans (s.drop n) ts) (hr : t.relists ts = false)
    {us : List Token} (hus : Scans (listingAll (t :: ts)) us) : ¬SameAll (t :: ts) us := by
  rw [listingAll_cons, scans_blank_iff (c := 0x20) rfl] at hus
  cases h with
  | keyword h => cases hr
  | remark h => cases hr
  | number hnumber h => cases hr
  | string hquote hs h => cases hr
  | mark h => cases hr
  -- a field that starts with a quote is no longer one when it is read back
  | data h =>
    obtain ⟨d, r, m, heq, hd, hreads, -⟩ := reads_data (Field.readAll (s.drop _)).1 ts
    rw [heq, scans_cons_iff hd hreads] at hus
    obtain ⟨us, rfl, -⟩ := hus
    rintro ⟨⟩
    next hsame _ =>
    have hquote := Field.startsWithQuote_of_readAll
      (fun v hv => Field.readable_of_mem_readAll hv) (same_data_iff.mp hsame)
    rw [Token.relists, List.all_eq_false] at hr
    obtain ⟨v, hv, hstarts⟩ := hr
    simp [hquote v hv] at hstarts
  -- a name takes the digits that are listed behind it
  | symbol h hletter =>
    obtain ⟨hblank, hreads⟩ := reads_symbol hc hletter h hscan
    have hus' := (scans_cons_iff hblank hreads).mp hus
    obtain ⟨us, rfl, -⟩ := hus'
    rintro ⟨⟩
    next hsame _ =>
    obtain ⟨x, ts, rfl, hdollar⟩ := exists_number_of_relists hr
    rw [isString_symbol hletter] at hdollar
    rw [same_symbol_iff, List.cons.injEq, nameTail_append (alike_listingAll hscan),
      if_neg hdollar] at hsame
    obtain ⟨d, name, hname⟩ := nameTail_number hscan
    have hlength := congrArg List.length hsame.2
    rw [List.length_append, hname] at hlength
    simp at hlength

/-- Tokens are read back exactly if they are relistable. -/
theorem sameAll_iff_relistable {s : Bytes} {ts : List Token} (h : Scans s ts) :
    (∃ us, Scans (listingAll ts) us ∧ SameAll ts us) ↔ relistable ts = true := by
  induction h with
  | nil => exact ⟨fun _ => rfl, fun _ => ⟨[], .nil, .nil⟩⟩
  | blank hc h ih => exact ih
  | @token c s t n ts hc ht h ih =>
    rw [relistable, Bool.and_eq_true, ← ih]
    cases hr : t.relists ts with
    | false =>
      refine ⟨?_, fun h => by cases h.1⟩
      rintro ⟨us, hus, hsame⟩
      exact absurd hsame (ht.not_same hc h hr hus)
    | true =>
      simp only [listingAll_cons, (ht.readsBack hc h hr).scans_iff, true_and]
      constructor
      · rintro ⟨us, ⟨us', rfl, hus'⟩, hsame⟩
        cases hsame with
        | cons _ hsame => exact ⟨us', hus', hsame⟩
      · rintro ⟨us', hus', hsame⟩
        exact ⟨t :: us', ⟨us', rfl, hus'⟩, .cons ht.same_self hsame⟩

/-! ### Data by themselves -/

/-- Listed data are read back as the same token, and as nothing else. -/
theorem data_listing_reads_back {vs : List Value} (hne : vs ≠ []) (hvs : ∀ v ∈ vs, Field.Datum v) :
    Token.read (Token.data vs).listing = .ok [.data vs] ∧
      (Token.data vs).same (.data vs) = true := by
  have hreadable : ∀ v ∈ vs, Field.Readable v := fun v hv => (hvs v hv).readable.1
  obtain ⟨d, r, n, heq, hd, hreads, hdrop⟩ := reads_data vs []
  obtain ⟨hvalues, hremainder⟩ := Field.readAll_writeAll (t := []) hne hreadable
    (fun v hv => (hvs v hv).readable.2) ⟨.inl rfl, nofun⟩
  rw [listingAll_nil, hvalues] at hreads
  rw [listingAll_nil, hremainder] at hdrop
  rw [listingAll_nil, List.append_nil] at heq
  constructor
  · rw [heq, read_eq_ok_iff]
    refine .token hd hreads ?_
    rw [hdrop]
    exact .nil
  · rw [same_data_iff, List.forall₂_same]
    exact fun v hv => same_value_self (hreadable v hv)

/-- An empty string, one that looks like a number, one with separators and white space around them,
and one that is no text. -/
theorem data_listing_reads_back_quoted :
    (∀ v ∈ [Value.str [], .str (utf8 "1e5"), .num (-0.5), .str (utf8 " a,b: "), .str [0xff, 0xa0]],
        Field.Datum v) ∧
      Token.read (utf8 "DATA ,\"1e5\",-0.5,\" a,b: \"," ++ [0xff, 0xa0]) =
        .ok [.data [.str [], .str (utf8 "1e5"), .num (-0.5), .str (utf8 " a,b: "),
          .str [0xff, 0xa0]]] := by
  have hvs : ∀ v ∈ [Value.str [], .str (utf8 "1e5"), .num (-0.5), .str (utf8 " a,b: "),
      .str [0xff, 0xa0]], Field.Datum v := by
    simp only [List.forall_mem_cons, Field.Datum, List.not_mem_nil, false_imp_iff, implies_true,
      and_true]
    decide +kernel
  have hlisting : (Token.data [.str [], .str (utf8 "1e5"), .num (-0.5), .str (utf8 " a,b: "),
      .str [0xff, 0xa0]]).listing = utf8 "DATA ,\"1e5\",-0.5,\" a,b: \"," ++ [0xff, 0xa0] := by
    decide +kernel
  exact ⟨hvs, hlisting ▸ (data_listing_reads_back (by simp) hvs).1⟩

end Lexer

end LineBasic
