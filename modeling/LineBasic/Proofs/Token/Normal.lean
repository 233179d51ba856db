import LineBasic.Proofs.Token.Layout
import LineBasic.Proofs.Token.ReadBack

/-!
# The normal form of tokens

What reading a line gives is in normal form. Its names are in capitals, and no word stands anywhere
inside one, because a name ends as soon as a word could start. A name without a dollar sign ends
only where no further character of a name follows, so the next token is no name. A mark ends only
where no byte follows that would join it, so `<` and `>` do not stand in front of a token that
starts with such a byte. A remark takes the rest of its line.

Looking a variable up, listing a line and parsing an expression rest on this form.

## Main definitions

* `Name.IsSpelt` — the spelling of names
* `Token.Apart` — the tokens that may stand side by side
* `Token.Normal` — tokens in normal form

## Main results

* `Lexer.NameRest.wordless` — no word stands inside a name
* `Lexer.Scans.apart` — the next token starts where a name or a mark could not go on
* `Lexer.normal_of_read` — lines are read in normal form
-/

namespace LineBasic

open Command (squeeze)

/-- The letters `A` to `Z`. -/
def Byte.isCapital (c : UInt8) : Bool :=
  0x41 ≤ c && c ≤ 0x5a

/-- A name is a capital, capitals and digits, and perhaps a dollar sign at its end. -/
def Name.IsSpelt (name : Name) : Prop :=
  ∃ c body, Byte.isCapital c = true ∧
    (∀ b ∈ body, Byte.isCapital b = true ∨ Byte.isDigit b = true) ∧
    (name = c :: body ∨ name = c :: (body ++ [Byte.dollar]))

namespace Token

/-- The tokens that may stand side by side: a name that does not end in `$` is not followed by
another name, and `<` and `>` are not followed by what they would be joined with. -/
def Apart : Token → Token → Prop
  | .symbol name, .symbol _ => name.isString = true
  | .mark .less, u => u ≠ .mark .equal ∧ u ≠ .mark .greater ∧ u ≠ .mark .greaterEqual
  | .mark .greater, u => u.listing.head? ≠ some 0x3d
  | _, _ => True

/-- Tokens in normal form. -/
structure Normal (ts : List Token) : Prop where
  /-- Names are spelt in capitals. -/
  spelt : ∀ name, symbol name ∈ ts → name.IsSpelt
  /-- No word stands inside a name, neither a keyword nor `REM` nor `DATA`. -/
  wordless : ∀ name, symbol name ∈ ts → ∀ w : Lexer.Word, ¬w.spelling <:+: name
  /-- No token stands next to one that it would have been read together with. -/
  apart : ts.IsChain Apart
  /-- Only the last token can be a remark. -/
  remark_last : ∀ s, remark s ∉ ts.dropLast

end Token

namespace Lexer

/-! ### Names -/

theorem isCapital_upper {c : UInt8} (hc : Byte.isLetter c = true) :
    Byte.isCapital (Byte.upper c) = true := by
  grind [Byte.isLetter, Byte.isCapital, Byte.upper]

theorem isCapital_or_isDigit {c : UInt8} (hc : isNameByte (Byte.upper c) = true) :
    Byte.isCapital (Byte.upper c) = true ∨ Byte.isDigit (Byte.upper c) = true := by
  rw [(isNameByte_eq_upper c).1, isNameByte, Bool.or_eq_true] at hc
  rcases hc with hletter | hdigit
  · exact .inl (isCapital_upper hletter)
  · right
    grind [Byte.isDigit, Byte.upper]

theorem exists_upper_of_mem_squeeze {x : Bytes} {b : UInt8} (hb : b ∈ squeeze x) :
    ∃ c, Byte.upper c = b := by
  rw [squeeze, List.mem_map] at hb
  obtain ⟨c, -, hc⟩ := hb
  exact ⟨c, hc⟩

/-- The further characters of a name are capitals and digits up to a dollar sign. -/
theorem NameRest.exists_body {name q : Bytes} (h : NameRest name q)
    (hupper : ∀ b ∈ name, ∃ c, Byte.upper c = b) :
    ∃ body, (∀ b ∈ body, Byte.isCapital b = true ∨ Byte.isDigit b = true) ∧
      (name = body ∨ name = body ++ [Byte.dollar]) := by
  induction h with
  | stop h => exact ⟨[], by simp, .inl rfl⟩
  | dollar => exact ⟨[], by simp, .inr rfl⟩
  | @next b name q hb hk h ih =>
    rw [List.forall_mem_cons] at hupper
    obtain ⟨⟨c, rfl⟩, hupper⟩ := hupper
    obtain ⟨body, hbody, hname⟩ := ih hupper
    refine ⟨Byte.upper c :: body, List.forall_mem_cons.mpr ⟨isCapital_or_isDigit hb, hbody⟩, ?_⟩
    rcases hname with rfl | rfl
    · exact .inl rfl
    · exact .inr rfl

/-- No word stands inside a name: it would have ended the name where it starts. -/
theorem NameRest.wordless {name q : Bytes} (h : NameRest name q) (w : Word) :
    ¬w.spelling <:+: name := by
  induction h with
  | stop h =>
    rw [List.infix_nil]
    exact spelling_ne_nil w
  | dollar =>
    intro hw
    obtain ⟨a, r, hspelling⟩ := List.exists_cons_of_ne_nil (spelling_ne_nil w)
    have ha : a ∈ w.spelling := by rw [hspelling]; exact List.mem_cons_self
    have hletter := (isSpelling_spelling w a ha).1
    rw [List.mem_singleton.mp (hw.subset ha)] at hletter
    cases hletter
  | @next c name q hc hk h ih =>
    rw [List.infix_cons_iff]
    rintro (hfront | hinside)
    · exact hk w (hfront.trans (List.prefix_append (c :: name) q))
    · exact ih hinside

/-- The name that stands at a letter, with the text behind it. -/
theorem Reads.exists_nameRest {c : UInt8} (hc : Byte.isBlank c = false) {s : Bytes} {name : Name}
    {n : Nat} (h : Reads c s (.symbol name) n) :
    ∃ rest, name = Byte.upper c :: rest ∧ Byte.isLetter c = true ∧
      (∀ b ∈ rest, ∃ d, Byte.upper d = b) ∧ NameRest rest (squeeze (s.drop n)) ∧
      NameRest name (squeeze (s.drop n)) := by
  obtain ⟨x, y, rfl, rfl, hstands⟩ := h.stands hc
  rw [List.drop_left]
  cases hstands with
  | @symbol rest hletter hx hname hk hrest =>
    refine ⟨rest, rfl, hletter, fun b hb => exists_upper_of_mem_squeeze (hname ▸ hb), hrest, ?_⟩
    have hbyte : isNameByte c = true := by rw [isNameByte, hletter, Bool.true_or]
    refine .next (isNameByte_upper hbyte).1 (fun w hw => hk w ?_) hrest
    rwa [squeeze_cons hc, squeeze_append, hname]

theorem Reads.spelt {c : UInt8} (hc : Byte.isBlank c = false) {s : Bytes} {name : Name} {n : Nat}
    (h : Reads c s (.symbol name) n) : name.IsSpelt := by
  obtain ⟨rest, rfl, hletter, hupper, hrest, -⟩ := h.exists_nameRest hc
  obtain ⟨body, hbody, hname⟩ := hrest.exists_body hupper
  exact ⟨_, body, isCapital_upper hletter, hbody, hname.imp (congrArg _) (congrArg _)⟩

theorem Reads.wordless {c : UInt8} (hc : Byte.isBlank c = false) {s : Bytes} {name : Name} {n : Nat}
    (h : Reads c s (.symbol name) n) (w : Word) : ¬w.spelling <:+: name := by
  obtain ⟨-, -, -, -, -, hname⟩ := h.exists_nameRest hc
  exact hname.wordless w

/-! ### Neighbours -/

/-- A name that does not end in `$` goes on with every name that follows it. -/
theorem isString_of_reads {c : UInt8} {s : Bytes} {name next : Name} {n k : Nat}
    (h : Reads c s (.symbol name) n) {d : UInt8} {r : Bytes}
    (hdrop : (s.drop n).drop (blanks (s.drop n)) = d :: r) (hnext : Reads d r (.symbol next) k) :
    name.isString = true := by
  cases h with
  | symbol hk hc =>
    have hname : isNameByte c = true := by rw [isNameByte, hc, Bool.true_or]
    rw [Name.isString, beq_iff_eq, getLast?_upper_cons hname]
    refine (nameTail_rest s).resolve_right fun hstop => ?_
    cases hnext with
    | symbol hk' hd =>
      rw [nameTail_cons hdrop, hk', if_neg (by simp), if_pos (by rw [isNameByte, hd, Bool.true_or])]
        at hstop
      cases hstop

/-- A mark is joined with no first byte of the token behind it. -/
theorem joined?_of_reads {c : UInt8} (hc : Byte.isBlank c = false) {s : Bytes} {m : Mark} {n : Nat}
    (h : Reads c s (.mark m) n) {d : UInt8} {r : Bytes}
    (hdrop : (s.drop n).drop (blanks (s.drop n)) = d :: r) {u : Token} {k : Nat}
    (hu : Reads d r u k) {b : UInt8} (hb : u.listing.head? = some b) : joined? m b = none := by
  have hd := isBlank_of_drop_blanks hdrop
  obtain ⟨x, y, rfl, rfl, hstands⟩ := h.stands hc
  rw [List.drop_left] at hdrop
  cases hstands with
  | mark hx hspelling hy =>
    rw [← squeeze_dropWhile, ← drop_blanks, hdrop, squeeze_cons hd] at hy
    have hjoined := hy _ rfl
    rw [joined?_upper] at hjoined
    obtain ⟨a, t, hlisting, -, hcases⟩ := listing_head hd hu
    rw [hlisting] at hb
    obtain rfl := Option.some.inj hb
    rcases hcases with ⟨-, rfl⟩ | ⟨hdigit, -⟩ | ⟨-, rfl⟩
    · rwa [joined?_upper]
    · rw [Option.eq_none_iff_forall_ne_some]
      intro m' hm'
      have hother := (joined?_eq_some hm').2
      simp [isOther, hdigit] at hother
    · exact hjoined

/-- A token does not stand next to one that it would have been read together with. -/
theorem Reads.apart {c : UInt8} (hc : Byte.isBlank c = false) {s : Bytes} {t : Token} {n : Nat}
    (h : Reads c s t n) {u : Token} {us : List Token} (hscans : Scans (s.drop n) (u :: us)) :
    t.Apart u := by
  obtain ⟨d, r, k, hdrop, -, hu⟩ := exists_reads hscans
  cases t with
  | symbol name =>
    cases u with
    | symbol next => exact isString_of_reads h hdrop hu
    | _ => trivial
  | mark m =>
    have hjoined : ∀ b, u.listing.head? = some b → joined? m b = none :=
      fun b hb => joined?_of_reads hc h hdrop hu hb
    cases m with
    | less => refine ⟨?_, ?_, ?_⟩ <;> (rintro rfl; cases hjoined _ rfl)
    | greater =>
      intro hequal
      cases hjoined _ hequal
    | _ => trivial
  | _ => trivial

theorem Scans.apart {s : Bytes} {ts : List Token} (h : Scans s ts) : ts.IsChain Token.Apart := by
  induction h with
  | nil => exact .nil
  | blank hc h ih => exact ih
  | @token c s t n ts hc ht h ih =>
    cases ts with
    | nil => exact .singleton t
    | cons u us => exact .cons_cons (ht.apart hc h) ih

/-! ### Lines -/

/-- What holds of each token where it is read holds of all tokens of a line. -/
theorem Scans.forall_mem {motive : Token → Prop}
    (hreads : ∀ {c s t n}, Byte.isBlank c = false → Reads c s t n → motive t) {s : Bytes}
    {ts : List Token} (h : Scans s ts) : ∀ t ∈ ts, motive t := by
  induction h with
  | nil => simp
  | blank hc h ih => exact ih
  | token hc ht h ih => exact List.forall_mem_cons.mpr ⟨hreads hc ht, ih⟩

/-- Nothing is read behind a remark. -/
theorem Scans.remark_last {s : Bytes} {ts : List Token} (h : Scans s ts) (r : Bytes) :
    Token.remark r ∉ ts.dropLast := by
  induction h with
  | nil => simp
  | blank hc h ih => exact ih
  | @token c s t n ts hc ht h ih =>
    cases ts with
    | nil => simp
    | cons u us =>
      rw [List.dropLast_cons_cons, List.mem_cons, not_or]
      refine ⟨?_, ih⟩
      rintro rfl
      cases ht with
      | remark hk =>
        rw [List.drop_length] at h
        cases h

/-- A line that can be read is read in normal form. -/
theorem normal_of_read {line : Bytes} {ts : List Token} (h : Token.read line = .ok ts) :
    Token.Normal ts := by
  have hscans := read_eq_ok_iff.mp h
  constructor
  case spelt =>
    intro name hname
    have hall := hscans.forall_mem (motive := fun t => ∀ name, t = .symbol name → name.IsSpelt)
      fun hc ht name hname => Reads.spelt hc (hname ▸ ht)
    exact hall _ hname name rfl
  case wordless =>
    intro name hname w
    have hall := hscans.forall_mem
      (motive := fun t => ∀ name, t = .symbol name → ¬w.spelling <:+: name)
      fun hc ht name hname => Reads.wordless hc (hname ▸ ht) w
    exact hall _ hname name rfl
  case apart => exact hscans.apart
  case remark_last => exact hscans.remark_last

/-- In `ifx$y<>a < (b) r e m > = c` the letters of `IF` and `REM` end the names in front of them,
and `<` stands in front of a bracket. -/
theorem normal_of_read_crunched :
    Token.read (utf8 "ifx$y<>a < (b) r e m > = c") =
        .ok [.keyword .IF, .symbol (utf8 "X$"), .symbol (utf8 "Y"), .mark .notEqual,
          .symbol (utf8 "A"), .mark .less, .mark .lparen, .symbol (utf8 "B"), .mark .rparen,
          .remark (utf8 " > = c")] ∧
      Token.Normal [.keyword .IF, .symbol (utf8 "X$"), .symbol (utf8 "Y"), .mark .notEqual,
          .symbol (utf8 "A"), .mark .less, .mark .lparen, .symbol (utf8 "B"), .mark .rparen,
          .remark (utf8 " > = c")] := by
  have hread : Token.read (utf8 "ifx$y<>a < (b) r e m > = c") =
      .ok [.keyword .IF, .symbol (utf8 "X$"), .symbol (utf8 "Y"), .mark .notEqual,
        .symbol (utf8 "A"), .mark .less, .mark .lparen, .symbol (utf8 "B"), .mark .rparen,
        .remark (utf8 " > = c")] := by decide +kernel
  exact ⟨hread, normal_of_read hread⟩

end Lexer

end LineBasic
