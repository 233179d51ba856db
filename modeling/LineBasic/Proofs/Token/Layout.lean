import LineBasic.Proofs.Field.Extent
import LineBasic.Proofs.Token.Name

/-!
# How tokens lie in a line

Reading a token is told here by the text it takes and the text behind it, without a word on how that
text is found. A keyword, a remark and a string are settled by their own text. A number, a mark, a
name and data also say how the next text may go on: not with a byte of a number, not with a byte
that would join the mark, not with a character of the name, and not at all unless with a colon.

A line is then blanks and such tokens, one behind the other. Each token is kept with its place, so
the relation says what reading a line gives, spans included, and how far reading gets before a text
that is no token.

## Main definitions

* `Lexer.Stands` — a text that is a token in front of another
* `Lexer.Lays` — the lexemes of a text that stands between two others
* `Lexeme.text` — the bytes of a lexeme

## Main results

* `Lexer.Stands.reads`, `Lexer.Reads.stands` — a token is read exactly where it stands
* `Lexer.Lays.runFrom_eq` — reading goes on behind the lexemes of a text
* `Lexer.run_eq_ok_iff`, `Lexer.exists_of_run_eq_error` — what reading a line gives
-/

namespace LineBasic

open Command (squeeze)

/-- The bytes of a lexeme in its line. -/
def Lexeme.text (line : Bytes) (l : Lexeme) : Bytes :=
  line.extract l.span.start l.span.stop

namespace Lexer

/-! ### One token -/

/-- The text `c :: x` is a token in front of the text `y`. -/
inductive Stands (c : UInt8) (x y : Bytes) : Token → Prop
  | keyword {k : Keyword} (hx : Tight x) (h : squeeze (c :: x) = k.spelling) :
    Stands c x y (.keyword k)
  | remark {u r : Bytes} (hx : x = u ++ r) (hu : Tight u) (h : squeeze (c :: u) = utf8 "REM")
    (hy : y = []) : Stands c x y (.remark r)
  | data {u f : Bytes} (hx : x = u ++ f) (hu : Tight u) (h : squeeze (c :: u) = utf8 "DATA")
    (hf : Field.remainder f = [])
    (hy : y = [] ∨ y.head? = some Byte.colon ∧ ¬Field.LeavesOpen f) :
    Stands c x y (.data (Field.readAll f).1)
  | symbol {name : Name} (hc : Byte.isLetter c = true) (hx : Tight x) (h : squeeze x = name)
    (hk : ∀ w : Word, ¬w.spelling <+: squeeze (c :: (x ++ y)))
    (hname : NameRest name (squeeze y)) : Stands c x y (.symbol (Byte.upper c :: name))
  | number {v : Float} (hx : ∀ b ∈ c :: x, isNumberByte b = true)
    (h : Number.read? (c :: x) = some v) (hy : ∀ b ∈ y.head?, isNumberByte b = false) :
    Stands c x y (.number v)
  | string {inner : Bytes} (hc : c = Byte.quote) (hx : x = inner ++ [Byte.quote])
    (h : Byte.quote ∉ inner) : Stands c x y (.string inner)
  | mark {m : Mark} (hx : Tight x) (h : squeeze (c :: x) = m.spelling)
    (hy : ∀ d ∈ (squeeze y).head?, joined? m d = none) : Stands c x y (.mark m)

/-- A mark is read where it stands. -/
theorem reads_mark {c : UInt8} (hc : Byte.isBlank c = false) {x y : Bytes} {m : Mark} (hx : Tight x)
    (h : squeeze (c :: x) = m.spelling) (hy : ∀ d ∈ (squeeze y).head?, joined? m d = none) :
    Reads c (x ++ y) (.mark m) x.length := by
  have hother : ∀ {a : UInt8} {m' : Mark}, mark? a = some m' → isOther a = true := by
    intro a m' ha
    exact (isOther_of_mark? (by rw [ha]; rfl)).1
  rw [squeeze_cons hc] at h
  rcases spelling_mark m with ⟨a, hspelling, ha⟩ | ⟨m', a, d, hspelling, ha, hd⟩
  · rw [hspelling, List.cons.injEq] at h
    obtain ⟨rfl, hnil⟩ := h
    rw [upper_of_isOther (hother ha)] at ha
    obtain rfl := hx.eq_nil hnil
    have hreads : Reads c y _ _ := .mark ha
    rwa [markTail_eq_self hy] at hreads
  · rw [hspelling, List.cons.injEq] at h
    obtain ⟨rfl, hrest⟩ := h
    rw [upper_of_isOther (hother ha)] at ha
    obtain ⟨b, e, r, rfl, hb, he, rfl, hr, htight⟩ := hx.exists_cons hrest
    obtain rfl := htight.eq_nil hr
    rw [upper_of_isOther (joined?_eq_some hd).2] at hd
    have hreads : Reads c (b ++ e :: y) _ _ := .mark ha
    rw [markTail_append hb hd] at hreads
    rw [List.append_assoc, List.singleton_append, List.length_append, List.length_singleton]
    exact hreads

/-- A token is read where it stands. -/
theorem Stands.reads {c : UInt8} (hc : Byte.isBlank c = false) {x y : Bytes} {t : Token}
    (h : Stands c x y t) : Reads c (x ++ y) t x.length := by
  cases h with
  | @keyword k hx h => exact .keyword (keyword?_append hc hx (w := .plain k) h y)
  | @remark u r hx hu h hy =>
    subst hx hy
    have hk := keyword?_append hc hu (w := .rem) h r
    have hreads : Reads c (u ++ r) _ _ := .remark hk
    rw [List.drop_left] at hreads
    rwa [List.append_nil]
  | @data u f hx hu h hf hy =>
    subst hx
    obtain ⟨hvalues, hremainder⟩ := Field.readAll_append hf hy
    have hk := keyword?_append hc hu (w := .data) h (f ++ y)
    have hreads : Reads c (u ++ (f ++ y)) _ _ := .data hk
    rw [List.drop_left, hvalues, Field.readAll_snd hremainder] at hreads
    rwa [List.append_assoc, List.length_append]
  | @symbol name hletter hx h hk hname =>
    have hnone : keyword? (c :: (x ++ y)) = none := by
      rw [← Option.not_isSome_iff_eq_none, keyword?_isSome_iff hc]
      exact fun ⟨w, hw⟩ => hk w hw
    have hreads := Reads.symbol hnone hletter
    rwa [hname.nameTail hx h rfl] at hreads
  | @number v hx h hy =>
    rw [List.forall_mem_cons] at hx
    have htake := takeWhile_number hx.2 hy
    have hreads : Reads c (x ++ y) (.number v) _ := .number hx.1 (by rw [htake, h])
    rwa [htake] at hreads
  | @string inner hquote hx h =>
    subst hx
    rw [List.append_assoc, List.length_append]
    exact .string hquote rfl h
  | mark hx h hy => exact reads_mark hc hx h hy

/-- A token that is read stands there. -/
theorem Reads.stands {c : UInt8} (hc : Byte.isBlank c = false) {s : Bytes} {t : Token} {n : Nat}
    (h : Reads c s t n) : ∃ x y, s = x ++ y ∧ x.length = n ∧ Stands c x y t := by
  cases h with
  | keyword h =>
    obtain ⟨x, y, hs, hn, hx, hspelling⟩ := exists_of_keyword? hc h
    exact ⟨x, y, hs, hn, .keyword hx hspelling⟩
  | remark h =>
    obtain ⟨u, r, rfl, rfl, hu, hspelling⟩ := exists_of_keyword? hc h
    rw [List.drop_left]
    exact ⟨u ++ r, [], by simp, rfl, .remark rfl hu hspelling rfl⟩
  | data h =>
    obtain ⟨u, r, rfl, rfl, hu, hspelling⟩ := exists_of_keyword? hc h
    obtain ⟨f, hr, hvalues, hf, hopen⟩ := Field.exists_readAll r
    have hlength : (Field.readAll r).2 = f.length := by
      have hsnd := Field.readAll_snd (f := f) (y := Field.remainder r) (by rw [← hr])
      rwa [← hr] at hsnd
    rw [List.drop_left, ← hvalues, hlength]
    refine ⟨u ++ f, Field.remainder r, by rw [List.append_assoc, ← hr], List.length_append,
      .data rfl hu hspelling hf ?_⟩
    rcases Field.remainder_eq r with hnil | ⟨q, hcolon⟩
    · exact .inl hnil
    · exact .inr ⟨by rw [hcolon]; rfl, hopen (by rw [hcolon]; simp)⟩
  | symbol h hletter =>
    obtain ⟨x, y, hs, hn, hx, hname, hrest⟩ := nameRest_nameTail s
    refine ⟨x, y, hs, hn, .symbol hletter hx hname ?_ hrest⟩
    intro w hw
    have hsome := (keyword?_isSome_iff hc).mpr ⟨w, hw⟩
    rw [← hs, h] at hsome
    cases hsome
  | number hnumber h =>
    refine ⟨_, _, List.takeWhile_append_dropWhile.symm, rfl, .number ?_ h ?_⟩
    · exact List.forall_mem_cons.mpr ⟨hnumber, fun b hb => List.mem_takeWhile_imp hb⟩
    · intro b hb
      have hhead := List.head?_dropWhile_not isNumberByte s
      rw [Option.mem_def.mp hb] at hhead
      simpa using hhead
  | @string inner rest hquote hs h =>
    exact ⟨inner ++ [Byte.quote], rest, by simp [hs], by simp, .string hquote rfl h⟩
  | @mark m h =>
    have hother := (isOther_of_mark? (c := c) (by rw [h]; rfl)).1
    have hupper : Byte.upper c = c := upper_of_isOther (by rw [isOther_upper, hother])
    rcases markTail_cases m s with ⟨htail, hjoined⟩ | ⟨b, d, r, m', rfl, hb, hd⟩
    · rw [htail]
      refine ⟨[], s, rfl, rfl, .mark tight_nil ?_ hjoined⟩
      rw [squeeze_cons hc, hupper, spelling_of_mark? h]
      rfl
    · obtain ⟨hspelling, hdother⟩ := joined?_eq_some hd
      have hdblank := isBlank_of_isOther hdother
      have hdupper : Byte.upper d = d := upper_of_isOther (by rw [isOther_upper, hdother])
      rw [markTail_append hb hd]
      refine ⟨b ++ [d], r, by simp, by simp, .mark ?_ ?_ fun e _ => joined?_of_joined? hd e⟩
      · rw [tight_append (by simp), tight_cons_iff hdblank]
        exact tight_nil
      · rw [squeeze_cons hc, squeeze_append, squeeze_of_isBlank hb, squeeze_cons hdblank, hupper,
          hdupper, hspelling, spelling_of_mark? h]
        rfl

/-! ### Lines -/

/-- The lexemes of the text between `p` and `e`, which all together are a line. -/
inductive Lays (e : Bytes) : (p z : Bytes) → List Lexeme → Prop
  | nil {p : Bytes} : Lays e p [] []
  | blank {p z : Bytes} {c : UInt8} {ls : List Lexeme} (hc : Byte.isBlank c = true)
    (h : Lays e (p ++ [c]) z ls) : Lays e p (c :: z) ls
  | token {p x z : Bytes} {c : UInt8} {t : Token} {ls : List Lexeme} (hc : Byte.isBlank c = false)
    (ht : Stands c x (z ++ e) t) (h : Lays e (p ++ c :: x) z ls) :
    Lays e p (c :: (x ++ z)) (⟨t, ⟨p.length, p.length + 1 + x.length⟩⟩ :: ls)

/-- Reading gives the lexemes of a text, and goes on with the text behind it. -/
theorem Lays.runFrom_eq {e p z : Bytes} {ls : List Lexeme} (h : Lays e p z ls) :
    runFrom p.length (z ++ e) = (runFrom (p ++ z).length e).map (ls ++ ·) := by
  induction h with
  | nil =>
    rw [List.append_nil, List.nil_append]
    cases runFrom _ e <;> rfl
  | @blank p z c ls hc h ih =>
    rw [List.length_append, List.length_singleton] at ih
    rw [List.cons_append, runFrom, if_pos hc, ih, List.append_assoc, List.singleton_append]
  | @token p x z c t ls hc ht h ih =>
    have hlexeme := lexeme_of_reads hc (ht.reads hc)
    have hlength : (p ++ c :: x).length = p.length + 1 + x.length := by
      rw [List.length_append, List.length_cons]
      omega
    rw [hlength] at ih
    rw [List.cons_append, List.append_assoc, runFrom, if_neg (by simp [hc]), hlexeme]
    simp only [List.drop_left, ih]
    rw [List.append_assoc, List.cons_append]
    cases runFrom _ e <;> rfl

/-- What reading gives: the lexemes of the text, or those in front of a text that is no token. -/
theorem exists_lays (p s : Bytes) :
    (∃ ls, Lays [] p s ls) ∨
      ∃ z c r ls what n, s = z ++ c :: r ∧ Lays (c :: r) p z ls ∧ Byte.isBlank c = false ∧
        lexeme c r = .error (what, n) := by
  cases s with
  | nil => exact .inl ⟨[], .nil⟩
  | cons c s =>
    cases hc : Byte.isBlank c with
    | true =>
      rcases exists_lays (p ++ [c]) s with ⟨ls, h⟩ | ⟨z, d, r, ls, what, n, rfl, h, herror⟩
      · exact .inl ⟨ls, .blank hc h⟩
      · exact .inr ⟨c :: z, d, r, ls, what, n, rfl, .blank hc h, herror⟩
    | false =>
      cases hlexeme : lexeme c s with
      | error bad => exact .inr ⟨[], c, s, [], bad.1, bad.2, rfl, .nil, hc, hlexeme⟩
      | ok read =>
        obtain ⟨x, y, hs, -, ht⟩ := (reads_of_lexeme hlexeme).stands hc
        have hlength : y.length < (c :: s).length := by
          rw [hs, List.length_cons, List.length_append]
          omega
        rcases exists_lays (p ++ c :: x) y with ⟨ls, h⟩ | ⟨z, d, r, ls, what, n, rfl, h, herror⟩
        · rw [hs]
          exact .inl ⟨_, .token hc (by rwa [List.append_nil]) h⟩
        · refine .inr ⟨c :: (x ++ z), d, r, _, what, n, ?_, .token hc ht h, herror⟩
          rw [hs, List.cons_append, List.append_assoc]
termination_by s.length

/-- Reading a line gives its lexemes. -/
theorem run_eq_ok_iff {line : Bytes} {ls : List Lexeme} :
    run line = .ok ls ↔ Lays [] [] line ls := by
  have hrun : ∀ {ls}, Lays [] [] line ls → run line = .ok ls := by
    intro ls h
    have heq := h.runFrom_eq
    rw [List.append_nil] at heq
    rw [run]
    refine heq.trans ?_
    rw [runFrom]
    exact congrArg Except.ok (List.append_nil ls)
  refine ⟨fun h => ?_, hrun⟩
  rcases exists_lays [] line with ⟨ls', h'⟩ | ⟨z, c, r, ls', what, n, rfl, h', hc, herror⟩
  · cases (hrun h').symm.trans h
    exact h'
  · rw [run] at h
    have heq := h'.runFrom_eq.symm.trans h
    rw [runFrom, if_neg (by simp [hc]), herror] at heq
    cases heq

/-- Reading a line stops at the first text that is no token. -/
theorem exists_of_run_eq_error {line : Bytes} {cause : Cause} (h : run line = .error cause) :
    ∃ z c r ls what n, line = z ++ c :: r ∧ Lays (c :: r) [] z ls ∧ Byte.isBlank c = false ∧
      lexeme c r = .error (what, n) ∧ cause = .misspelled what ⟨z.length, z.length + 1 + n⟩ := by
  rcases exists_lays [] line with ⟨ls, h'⟩ | ⟨z, c, r, ls, what, n, rfl, h', hc, herror⟩
  · rw [run_eq_ok_iff.mpr h'] at h
    cases h
  · rw [run] at h
    have heq := h'.runFrom_eq.symm.trans h
    rw [runFrom, if_neg (by simp [hc]), herror] at heq
    cases heq
    exact ⟨z, c, r, ls, what, n, rfl, h', hc, herror, rfl⟩

/-! ### The texts of lexemes -/

/-- The text of the lexeme that stands behind `p`. -/
theorem text_head {p x z : Bytes} {c : UInt8} {t : Token} :
    Lexeme.text (p ++ c :: (x ++ z)) ⟨t, ⟨p.length, p.length + 1 + x.length⟩⟩ = c :: x := by
  have hlength : p.length + 1 + x.length - p.length = (c :: x).length := by
    rw [List.length_cons]
    omega
  rw [Lexeme.text, List.extract, List.drop_left, hlength, ← List.cons_append, List.take_left]

/-- Each lexeme stands in its line. -/
theorem Lays.exists_stands {e p z : Bytes} {ls : List Lexeme} (h : Lays e p z ls) {l : Lexeme}
    (hl : l ∈ ls) : ∃ q c x y, p ++ z = q ++ (c :: x ++ y) ∧ p.length ≤ q.length ∧
      l.span = ⟨q.length, q.length + (c :: x).length⟩ ∧ Byte.isBlank c = false ∧
        Stands c x (y ++ e) l.token := by
  induction h with
  | nil => cases hl
  | @blank p z c ls hc h ih =>
    obtain ⟨q, d, x, y, hq, hlength, hrest⟩ := ih hl
    refine ⟨q, d, x, y, by simpa using hq, ?_, hrest⟩
    rw [List.length_append] at hlength
    omega
  | @token p x z c t ls hc ht h ih =>
    rcases List.mem_cons.mp hl with rfl | hl
    · refine ⟨p, c, x, z, rfl, le_rfl, ?_, hc, ht⟩
      simp only [Span.mk.injEq, List.length_cons, true_and]
      omega
    · obtain ⟨q, d, x', y, hq, hlength, hrest⟩ := ih hl
      refine ⟨q, d, x', y, by simpa using hq, ?_, hrest⟩
      rw [List.length_append] at hlength
      omega

/-- Lexemes do not overlap. -/
theorem Lays.ordered {e p z : Bytes} {ls : List Lexeme} (h : Lays e p z ls) :
    ls.Pairwise fun l l' => l.span.stop ≤ l'.span.start := by
  induction h with
  | nil => exact .nil
  | blank hc h ih => exact ih
  | @token p x z c t ls hc ht h ih =>
    refine .cons (fun l hl => ?_) ih
    obtain ⟨q, _, _, _, -, hlength, hspan, -, -⟩ := h.exists_stands hl
    rw [List.length_append, List.length_cons] at hlength
    rw [hspan]
    dsimp only
    omega

end Lexer

end LineBasic
