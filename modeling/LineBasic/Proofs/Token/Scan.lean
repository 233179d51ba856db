import LineBasic.Proofs.Field
import LineBasic.Proofs.Token.Word

/-!
# Reading a line as a relation

What a text starts with is decided by its first byte and the words it could start with. The cases
exclude each other, so reading a token is a relation with one rule for each kind of token, and
reading a line is that relation repeated, with blanks passed over in between.

## Main definitions

* `Lexer.Reads` — the token that a text starts with
* `Lexer.Scans` — the tokens of a text

## Main results

* `Lexer.lexeme_of_reads`, `Lexer.reads_of_lexeme` — `Reads` says what `lexeme` does
* `Lexer.read_eq_ok_iff` — `Scans` says what `Token.read` does
-/

namespace LineBasic

open Command (squeeze)

namespace Lexer

/-! ### Classes of bytes -/

theorem isLetter_upper (c : UInt8) : Byte.isLetter (Byte.upper c) = Byte.isLetter c := by
  grind [Byte.isLetter, Byte.upper]

theorem upper_eq_or (c : UInt8) : Byte.upper c = c ∨ Byte.isLetter c = true := by
  rw [Byte.upper]
  split
  · next hc => exact .inr (by rw [Byte.isLetter, hc, Bool.or_true])
  · exact .inl rfl

/-- What does not tell one letter from another does not tell letter case either. -/
theorem upper_congr {α : Sort*} {f : UInt8 → α}
    (h : ∀ c d, Byte.isLetter c = true → Byte.isLetter d = true → f c = f d) (c : UInt8) :
    f (Byte.upper c) = f c := by
  rcases upper_eq_or c with hc | hc
  · rw [hc]
  · exact h _ c (by rw [isLetter_upper, hc]) hc

theorem isBlank_of_isLetter {c : UInt8} (hc : Byte.isLetter c = true) : Byte.isBlank c = false := by
  grind [Byte.isLetter, Byte.isBlank]

/-- The bytes that no name holds and no word starts with. -/
def isOther (c : UInt8) : Bool :=
  !Byte.isLetter c && !Byte.isDigit c && c != Byte.dollar && !Byte.isBlank c

theorem isOther_quote : isOther Byte.quote = true := by
  decide

theorem isBlank_of_isOther {c : UInt8} (hc : isOther c = true) : Byte.isBlank c = false := by
  simp only [isOther, Bool.and_eq_true, Bool.not_eq_true'] at hc
  exact hc.2

theorem isLetter_of_isOther {c : UInt8} (hc : isOther c = true) : Byte.isLetter c = false := by
  simp only [isOther, Bool.and_eq_true, Bool.not_eq_true'] at hc
  exact hc.1.1.1

theorem isOther_of_isLetter {c : UInt8} (hc : Byte.isLetter c = true) : isOther c = false := by
  rw [isOther, hc]
  rfl

theorem upper_of_isOther {c : UInt8} (hc : isOther (Byte.upper c) = true) : Byte.upper c = c := by
  refine (upper_eq_or c).resolve_right fun hletter => ?_
  rw [isOther_of_isLetter (by rw [isLetter_upper, hletter])] at hc
  cases hc

theorem isOther_upper (c : UInt8) : isOther (Byte.upper c) = isOther c :=
  upper_congr (fun _ _ hc hd => by rw [isOther_of_isLetter hc, isOther_of_isLetter hd]) c

theorem isNumberByte_bytes {c : UInt8} (hc : isNumberByte c = true) :
    Byte.isLetter c = false ∧ Byte.isBlank c = false ∧ c ≠ Byte.quote := by
  grind [isNumberByte, Byte.isDigit, Byte.isLetter, Byte.isBlank, Byte.quote]

theorem takeWhile_number {x y : Bytes} (hx : ∀ b ∈ x, isNumberByte b = true)
    (hy : ∀ b ∈ y.head?, isNumberByte b = false) : (x ++ y).takeWhile isNumberByte = x := by
  have hstop : y.takeWhile isNumberByte = [] := by
    cases y with
    | nil => rfl
    | cons b y => rw [List.takeWhile_cons_of_neg (by simp [hy b rfl])]
  rw [List.takeWhile_append_of_pos hx, hstop, List.append_nil]

theorem keyword?_of_not_letter {c : UInt8} (hc : Byte.isBlank c = false)
    (hletter : Byte.isLetter c = false) (s : Bytes) : keyword? (c :: s) = none :=
  keyword?_eq_none hc (by rw [isLetter_upper, hletter]) s

theorem stops_cons {c : UInt8} (hc : Byte.isBlank c = false) (hletter : Byte.isLetter c = false)
    (s : Bytes) : Stops (c :: s) := by
  intro d hd
  rw [squeeze_cons hc, List.head?_cons] at hd
  obtain rfl := Option.some.inj hd
  rw [isLetter_upper, hletter]

/-! ### Marks -/

theorem isOther_of_mark? {c : UInt8} (hc : (mark? c).isSome = true) :
    isOther c = true ∧ isNumberByte c = false ∧ c ≠ Byte.quote := by
  unfold mark? at hc
  split at hc
  all_goals first | decide | cases hc

theorem spelling_of_mark? {c : UInt8} {m : Mark} (h : mark? c = some m) : m.spelling = [c] := by
  unfold mark? at h
  split at h
  all_goals first | (cases h; rfl) | cases h

theorem joined?_eq_some {m m' : Mark} {d : UInt8} (h : joined? m d = some m') :
    m'.spelling = m.spelling ++ [d] ∧ isOther d = true := by
  unfold joined? at h
  split at h
  all_goals first | (cases h; decide) | cases h

theorem joined?_of_isLetter (m : Mark) {d : UInt8} (hd : Byte.isLetter d = true) :
    joined? m d = none := by
  rw [Option.eq_none_iff_forall_ne_some]
  intro m' h
  rw [isLetter_of_isOther (joined?_eq_some h).2] at hd
  cases hd

theorem joined?_upper (m : Mark) (d : UInt8) : joined? m (Byte.upper d) = joined? m d :=
  upper_congr (fun _ _ hc hd => by rw [joined?_of_isLetter m hc, joined?_of_isLetter m hd]) d

/-- A mark that was joined is joined with nothing else. -/
theorem joined?_of_joined? {m m' : Mark} {d : UInt8} (h : joined? m d = some m') (e : UInt8) :
    joined? m' e = none := by
  unfold joined? at h
  split at h
  all_goals first | (cases h; rfl) | cases h

/-- A mark is spelt with the byte it is read from, or with that and the byte it is joined with. -/
theorem spelling_mark (m : Mark) :
    (∃ c, m.spelling = [c] ∧ mark? c = some m) ∨
      ∃ m' c d, m.spelling = [c, d] ∧ mark? c = some m' ∧ joined? m' d = some m := by
  cases m with
  | lessEqual => exact .inr ⟨.less, _, _, rfl, rfl, rfl⟩
  | notEqual => exact .inr ⟨.less, _, _, rfl, rfl, rfl⟩
  | greaterEqual => exact .inr ⟨.greater, _, _, rfl, rfl, rfl⟩
  | _ => exact .inl ⟨_, rfl, rfl⟩

theorem markTail_append {b : Bytes} (hb : ∀ d ∈ b, Byte.isBlank d = true) {m m' : Mark} {d : UInt8}
    (h : joined? m d = some m') (y : Bytes) : markTail m (b ++ d :: y) = (m', b.length + 1) := by
  obtain ⟨hblanks, hdrop⟩ := drop_blanks_append hb (isBlank_of_isOther (joined?_eq_some h).2) y
  rw [markTail, hdrop, hblanks]
  simp only [h]

/-- A mark is joined with nothing if the squeezed text goes on with another byte. -/
theorem markTail_eq_self {m : Mark} {y : Bytes} (h : ∀ d ∈ (squeeze y).head?, joined? m d = none) :
    markTail m y = (m, 0) := by
  rw [markTail]
  cases hdrop : y.drop (blanks y) with
  | nil => rfl
  | cons d r =>
    rw [← squeeze_dropWhile, ← drop_blanks, hdrop, squeeze_cons (isBlank_of_drop_blanks hdrop)] at h
    have hd := h _ rfl
    rw [joined?_upper] at hd
    simp only [hd]

theorem markTail_cases (m : Mark) (s : Bytes) :
    (markTail m s = (m, 0) ∧ ∀ d ∈ (squeeze s).head?, joined? m d = none) ∨
      ∃ b d r m', s = b ++ d :: r ∧ (∀ e ∈ b, Byte.isBlank e = true) ∧ joined? m d = some m' := by
  by_cases h : ∀ d ∈ (squeeze s).head?, joined? m d = none
  · exact .inl ⟨markTail_eq_self h, h⟩
  · rw [← squeeze_dropWhile, ← drop_blanks] at h
    cases hdrop : s.drop (blanks s) with
    | nil =>
      rw [hdrop] at h
      exact absurd (by simp [squeeze]) h
    | cons d r =>
      rw [hdrop, squeeze_cons (isBlank_of_drop_blanks hdrop)] at h
      simp only [List.head?_cons, Option.mem_def, Option.some.injEq, forall_eq', joined?_upper] at h
      obtain ⟨m', hm'⟩ := Option.ne_none_iff_exists'.mp h
      obtain ⟨b, hs, -, hb⟩ := eq_append_of_drop_blanks hdrop
      exact .inr ⟨b, d, r, m', hs, hb, hm'⟩

theorem markTail_colon (s : Bytes) : markTail .colon s = (.colon, 0) := by
  rw [markTail]
  split
  · rfl
  · rfl

/-! ### One token -/

/-- The token that the text `c :: s` starts with, and how many bytes of `s` it takes. -/
inductive Reads (c : UInt8) (s : Bytes) : Token → Nat → Prop
  | keyword {k : Keyword} {n : Nat} (h : keyword? (c :: s) = some (.plain k, n)) :
    Reads c s (.keyword k) n
  | remark {n : Nat} (h : keyword? (c :: s) = some (.rem, n)) :
    Reads c s (.remark (s.drop n)) s.length
  | data {n : Nat} (h : keyword? (c :: s) = some (.data, n)) :
    Reads c s (.data (Field.readAll (s.drop n)).1) (n + (Field.readAll (s.drop n)).2)
  | symbol (h : keyword? (c :: s) = none) (hc : Byte.isLetter c = true) :
    Reads c s (.symbol (Byte.upper c :: (nameTail s).1)) (nameTail s).2
  | number {x : Float} (hc : isNumberByte c = true)
    (h : Number.read? (c :: s.takeWhile isNumberByte) = some x) :
    Reads c s (.number x) (s.takeWhile isNumberByte).length
  | string {inner rest : Bytes} (hc : c = Byte.quote) (hs : s = inner ++ Byte.quote :: rest)
    (h : Byte.quote ∉ inner) : Reads c s (.string inner) (inner.length + 1)
  | mark {m : Mark} (h : mark? c = some m) : Reads c s (.mark (markTail m s).1) (markTail m s).2

theorem lexeme_of_reads {c : UInt8} (hblank : Byte.isBlank c = false) {s : Bytes} {t : Token}
    {n : Nat} (h : Reads c s t n) : lexeme c s = .ok (t, n) := by
  cases h with
  | keyword h => rw [lexeme, h]
  | remark h => rw [lexeme, h]
  | data h => rw [lexeme, h]
  | symbol h hc =>
    rw [lexeme, h]
    simp only [hc, if_true]
  | number hc h =>
    obtain ⟨hletter, -, -⟩ := isNumberByte_bytes hc
    rw [lexeme, keyword?_of_not_letter hblank hletter]
    simp only [hletter, hc, h, Bool.false_eq_true, if_false, if_true]
  | string hc hs h =>
    subst hc hs
    rw [lexeme, keyword?_of_not_letter hblank (by decide)]
    simp only [Field.takeWhile_inner h]
    rw [if_neg (by decide), if_neg (by decide), if_pos (by decide), if_neg (by simp)]
  | mark h =>
    obtain ⟨hother, hnumber, hquote⟩ := isOther_of_mark? (c := c) (by rw [h]; rfl)
    have hletter := isLetter_of_isOther hother
    rw [lexeme, keyword?_of_not_letter hblank hletter]
    simp only [hletter, hnumber, h, Bool.false_eq_true, if_false]
    rw [if_neg (by simpa using hquote)]

theorem reads_of_lexeme {c : UInt8} {s : Bytes} {t : Token} {n : Nat}
    (h : lexeme c s = .ok (t, n)) : Reads c s t n := by
  rw [lexeme] at h
  split at h
  · next hk => cases h; exact .keyword hk
  · next hk => cases h; exact .remark hk
  · next hk => cases h; exact .data hk
  · next hk =>
    split at h
    · next hc => cases h; exact .symbol hk hc
    · split at h
      · next hc =>
        simp only at h
        split at h
        · next x hx => cases h; exact .number hc hx
        · cases h
      · split at h
        · next hc =>
          rw [beq_iff_eq] at hc
          simp only at h
          split at h
          · cases h
          · next hlength =>
            cases h
            have hmem : Byte.quote ∈ s := by
              by_contra hs
              exact hlength (congrArg List.length (List.takeWhile_eq_self_iff.mpr
                fun b hb => by simp; rintro rfl; exact hs hb))
            obtain ⟨inner, rest, rfl, hinner⟩ := List.eq_append_cons_of_mem hmem
            rw [Field.takeWhile_inner hinner]
            exact .string hc rfl hinner
        · split at h
          · next m hm => cases h; exact .mark hm
          · cases h

/-! ### All tokens -/

/-- The tokens of a text. -/
inductive Scans : Bytes → List Token → Prop
  | nil : Scans [] []
  | blank {c : UInt8} {s : Bytes} {ts : List Token} (hc : Byte.isBlank c = true) (h : Scans s ts) :
    Scans (c :: s) ts
  | token {c : UInt8} {s : Bytes} {t : Token} {n : Nat} {ts : List Token}
    (hc : Byte.isBlank c = false) (ht : Reads c s t n) (h : Scans (s.drop n) ts) :
    Scans (c :: s) (t :: ts)

theorem scans_of_runFrom {start : Nat} {s : Bytes} {ls : List Lexeme}
    (h : runFrom start s = .ok ls) : Scans s (ls.map Lexeme.token) := by
  fun_induction runFrom start s generalizing ls with
  | case1 start =>
    cases h
    exact .nil
  | case2 start c s hc ih => exact .blank hc (ih h)
  | case3 start c s hc what n hlexeme => cases h
  | case4 start c s hc t n hlexeme e hrun ih => cases h
  | case5 start c s hc t n hlexeme rest hrun ih =>
    cases h
    exact .token (by simpa using hc) (reads_of_lexeme hlexeme) (ih hrun)

theorem runFrom_of_scans {s : Bytes} {ts : List Token} (h : Scans s ts) (start : Nat) :
    ∃ ls, runFrom start s = .ok ls ∧ ls.map Lexeme.token = ts := by
  induction h generalizing start with
  | nil => exact ⟨[], by rw [runFrom], rfl⟩
  | blank hc h ih =>
    obtain ⟨ls, hrun, hls⟩ := ih (start + 1)
    exact ⟨ls, by rw [runFrom, if_pos hc, hrun], hls⟩
  | @token c s t n ts hc ht h ih =>
    obtain ⟨ls, hrun, hls⟩ := ih (start + 1 + n)
    refine ⟨⟨t, ⟨start, start + 1 + n⟩⟩ :: ls, ?_, by rw [List.map_cons, hls]⟩
    rw [runFrom, if_neg (by simp [hc]), lexeme_of_reads hc ht]
    simp only [hrun]

/-- `Scans` says what reading a line gives. -/
theorem read_eq_ok_iff {s : Bytes} {ts : List Token} : Token.read s = .ok ts ↔ Scans s ts := by
  constructor
  · intro h
    rw [Token.read, run] at h
    cases hrun : runFrom 0 s with
    | error e => rw [hrun] at h; cases h
    | ok ls =>
      rw [hrun] at h
      cases h
      exact scans_of_runFrom hrun
  · intro h
    obtain ⟨ls, hrun, rfl⟩ := runFrom_of_scans h 0
    rw [Token.read, run, hrun]
    rfl

end Lexer

end LineBasic
