import LineBasic.Proofs.Token.Layout

/-!
# Other spellings of a line

A line may be spelt in many ways. Letters of words and names may stand in either case, and blanks
may stand wherever no literal is torn apart: inside a word, a name or an operator as well as between
tokens. A remark and data keep their text as it is, so blanks have no place in them, and the letters
of the word they start with are the only ones whose case is free.

A respelling of a line says for each of its bytes what is written for it and which blanks are put in
front. It leaves the squeezed text of the line as it was. Words and names depend on that alone, and
literals are copied, so every token stands where it stood, in front of a text that is alike.

## Main definitions

* `Lexeme.admitsBlank` — where a lexeme can have a blank put in
* `Lexeme.hasCase` — which bytes of a lexeme can be written in either case
* `Lexer.Respelling` — another spelling of a line

## Main results

* `Lexer.Stands.respelt`, `Lexer.Lays.respelt` — tokens stand where they stood
* `Lexer.respelling_reads_alike` — a respelt line has the same tokens
-/

namespace LineBasic

open Command (squeeze)

/-- Whether a blank can be put in front of byte `i` without tearing a lexeme apart. -/
def Lexeme.admitsBlank (l : Lexeme) (i : Nat) : Bool :=
  match l.token with
  | .number _ | .string _ => i ≤ l.span.start || l.span.stop ≤ i
  | .remark _ => i ≤ l.span.start
  | .data _ => i ≤ l.span.start || l.span.stop < i
  | .keyword _ | .mark _ | .symbol _ => true

/-- Whether byte `i` of a line is in a lexeme where letter case does not matter. In a remark and in
data these are the bytes up to the last letter of the word they start with. -/
def Lexeme.hasCase (line : Bytes) (l : Lexeme) (i : Nat) : Bool :=
  l.span.start ≤ i && i < l.span.stop &&
    match l.token with
    | .keyword _ | .symbol _ => true
    | .remark _ => (squeeze (line.extract l.span.start i)).length < (utf8 "REM").length
    | .data _ => (squeeze (line.extract l.span.start i)).length < (utf8 "DATA").length
    | .number _ | .string _ | .mark _ => false

namespace Lexer

/-- The bytes written for those of a text that starts at byte `i`, each with the blanks in front of
it. -/
def respell (gap : Nat → Bytes) (byte : Nat → UInt8 → UInt8) : Nat → Bytes → Bytes
  | _, [] => []
  | i, c :: s => gap i ++ byte i c :: respell gap byte (i + 1) s

/-- Another spelling of the line whose lexemes are `ls`. -/
structure Respelling (line : Bytes) (ls : List Lexeme) where
  /-- The blanks that are put in front of byte `i`, or at the end. -/
  gap : Nat → Bytes
  /-- What is written for the byte `c` at `i`. -/
  byte : Nat → UInt8 → UInt8
  /-- Nothing but spaces and tabs is put in. -/
  blank : ∀ i, ∀ b ∈ gap i, Byte.isBlank b = true
  /-- No lexeme is torn apart. -/
  admitted : ∀ i, gap i ≠ [] → ∀ l ∈ ls, l.admitsBlank i = true
  /-- Bytes change in nothing but letter case. -/
  upper : ∀ i c, Byte.upper (byte i c) = Byte.upper c
  /-- A letter changes only where its case does not matter. -/
  cased : ∀ i c, byte i c ≠ c → ∃ l ∈ ls, l.hasCase line i = true

/-- The line in its other spelling. -/
def Respelling.apply {line : Bytes} {ls : List Lexeme} (r : Respelling line ls) : Bytes :=
  respell r.gap r.byte 0 line ++ r.gap line.length

/-! ### Respelt texts -/

theorem isBlank_upper (c : UInt8) : Byte.isBlank (Byte.upper c) = Byte.isBlank c :=
  upper_congr (fun _ _ hc hd => by rw [isBlank_of_isLetter hc, isBlank_of_isLetter hd]) c

theorem isNumberByte_upper (c : UInt8) : isNumberByte (Byte.upper c) = isNumberByte c := by
  refine upper_congr (fun _ _ hc hd => ?_) c
  have hnumber : ∀ {b}, Byte.isLetter b = true → isNumberByte b = false := by
    intro b hb
    rw [← Bool.not_eq_true]
    intro hnumber
    rw [(isNumberByte_bytes hnumber).1] at hb
    cases hb
  rw [hnumber hc, hnumber hd]

theorem lays_blanks {e p b z : Bytes} (hb : ∀ d ∈ b, Byte.isBlank d = true) {ls : List Lexeme}
    (h : Lays e (p ++ b) z ls) : Lays e p (b ++ z) ls := by
  induction b generalizing p with
  | nil => rwa [List.append_nil] at h
  | cons d b ih =>
    rw [List.forall_mem_cons] at hb
    refine .blank hb.1 (ih hb.2 ?_)
    rwa [List.append_assoc, List.singleton_append]

section Respell

variable {gap : Nat → Bytes} {byte : Nat → UInt8 → UInt8}

theorem respell_append (i : Nat) (x y : Bytes) :
    respell gap byte i (x ++ y) = respell gap byte i x ++ respell gap byte (i + x.length) y := by
  induction x generalizing i with
  | nil => rfl
  | cons c x ih =>
    rw [List.cons_append, respell, respell, ih, List.length_cons, Nat.add_assoc, Nat.add_comm 1,
      List.append_assoc, List.cons_append]

/-- A text in which nothing is put in or changed stays as it is. -/
theorem respell_eq_self {i : Nat} {x : Bytes}
    (h : ∀ j, i ≤ j → j < i + x.length → gap j = [] ∧ ∀ c, byte j c = c) :
    respell gap byte i x = x := by
  induction x generalizing i with
  | nil => rfl
  | cons c x ih =>
    rw [List.length_cons] at h
    obtain ⟨hgap, hbyte⟩ := h i le_rfl (by omega)
    rw [respell, hgap, hbyte, ih fun j hj hlt => h j (by omega) (by omega)]
    rfl

variable (hblank : ∀ i, ∀ b ∈ gap i, Byte.isBlank b = true)
  (hupper : ∀ i c, Byte.upper (byte i c) = Byte.upper c)

include hupper in
theorem isBlank_byte (i : Nat) (c : UInt8) : Byte.isBlank (byte i c) = Byte.isBlank c := by
  rw [← isBlank_upper, hupper, isBlank_upper]

include hupper in
theorem isLetter_byte (i : Nat) (c : UInt8) : Byte.isLetter (byte i c) = Byte.isLetter c := by
  rw [← isLetter_upper, hupper, isLetter_upper]

include hblank hupper in
theorem squeeze_respell (i : Nat) (x : Bytes) : squeeze (respell gap byte i x) = squeeze x := by
  induction x generalizing i with
  | nil => rfl
  | cons c x ih =>
    rw [respell, squeeze_append, squeeze_of_isBlank (hblank i), List.nil_append]
    cases hc : Byte.isBlank c with
    | true =>
      rw [squeeze_blank hc, squeeze_blank (by rw [isBlank_byte hupper, hc]), ih]
    | false =>
      rw [squeeze_cons hc, squeeze_cons (by rw [isBlank_byte hupper, hc]), hupper, ih]

include hupper in
theorem tight_respell (i : Nat) {x : Bytes} (hx : Tight x) : Tight (respell gap byte i x) := by
  rcases List.eq_nil_or_concat' x with rfl | ⟨y, c, rfl⟩
  · exact hx
  · rw [tight_append (by simp)] at hx
    rw [respell_append, respell, respell, ← List.append_assoc, tight_append (by simp)]
    intro d hd
    cases hd
    exact (isBlank_byte hupper _ c).trans (hx c rfl)

include hblank hupper in
theorem squeeze_behind (i : Nat) (z : Bytes) (k : Nat) :
    squeeze (respell gap byte i z ++ gap k) = squeeze z := by
  rw [squeeze_append, squeeze_respell hblank hupper, squeeze_of_isBlank (hblank k), List.append_nil]

include hblank hupper in
/-- A respelt text starts with a blank or with its first byte. -/
theorem head?_behind {i : Nat} {z : Bytes} {k : Nat} {d : UInt8}
    (hd : d ∈ (respell gap byte i z ++ gap k).head?) :
    Byte.isBlank d = true ∨ ∃ c ∈ z.head?, Byte.upper d = Byte.upper c := by
  have hmem : ∀ {j} {s : Bytes}, d ∈ (gap j ++ s).head? → Byte.isBlank d = true ∨ d ∈ s.head? := by
    intro j s hd
    cases hgap : gap j with
    | nil =>
      rw [hgap] at hd
      exact .inr hd
    | cons b g =>
      rw [hgap] at hd
      cases hd
      exact .inl (hblank j _ (by simp [hgap]))
  cases z with
  | nil =>
    rw [respell, List.nil_append, ← List.append_nil (gap k)] at hd
    exact .inl ((hmem hd).resolve_right (by simp))
  | cons c z =>
    rw [respell, List.append_assoc, List.cons_append] at hd
    refine (hmem hd).imp_right ?_
    rintro ⟨⟩
    exact ⟨c, rfl, hupper i c⟩

/-! ### Respelt tokens -/

/-- The blanks and the bytes are as a lexeme of the line allows. -/
structure Respects (gap : Nat → Bytes) (byte : Nat → UInt8 → UInt8) (line : Bytes) (l : Lexeme) :
    Prop where
  closed : ∀ j, l.admitsBlank j = false → gap j = []
  kept : ∀ j, l.span.start ≤ j → j < l.span.stop → l.hasCase line j = false → ∀ c, byte j c = c

/-- A part of a lexeme that admits no blanks and has no case stays as it is. -/
theorem Respects.respell_eq {line : Bytes} {l : Lexeme} (h : Respects gap byte line l) {i : Nat}
    {y : Bytes} (hstart : l.span.start ≤ i) (hstop : i + y.length ≤ l.span.stop)
    (hadmits : ∀ j, i ≤ j → j < i + y.length → l.admitsBlank j = false)
    (hcase : ∀ j, i ≤ j → l.hasCase line j = false) : respell gap byte i y = y :=
  respell_eq_self fun j hle hlt =>
    ⟨h.closed j (hadmits j hle hlt), h.kept j (by omega) (by omega) (hcase j hle)⟩

/-- A literal stays as it is. -/
theorem Respects.literal {line : Bytes} {t : Token} {i : Nat} {x : Bytes}
    (h : Respects gap byte line ⟨t, ⟨i, i + 1 + x.length⟩⟩)
    (ht : (∃ v, t = .number v) ∨ ∃ inner, t = .string inner) (c : UInt8) :
    byte i c = c ∧ respell gap byte (i + 1) x = x := by
  have hcase : ∀ j, Lexeme.hasCase line ⟨t, ⟨i, i + 1 + x.length⟩⟩ j = false := by
    intro j
    rcases ht with ⟨v, rfl⟩ | ⟨inner, rfl⟩ <;> exact Bool.and_false _
  refine ⟨h.kept i le_rfl (by dsimp only; omega) (hcase i) c,
    h.respell_eq (Nat.le_succ i) le_rfl (fun j hle hlt => ?_) fun j _ => hcase j⟩
  have hinside : (decide (j ≤ i) || decide (i + 1 + x.length ≤ j)) = false := by
    simp only [Bool.or_eq_false_iff, decide_eq_false_iff_not]
    omega
  rcases ht with ⟨v, rfl⟩ | ⟨inner, rfl⟩ <;> exact hinside

/-- The tokens whose text goes on behind the word that it starts with. -/
inductive StartsWith : Token → Bytes → Prop
  | remark (r : Bytes) : StartsWith (.remark r) (utf8 "REM")
  | data (values : List Value) : StartsWith (.data values) (utf8 "DATA")

/-- No fewer letters than those of a word stand in front of a byte behind it. -/
theorem length_squeeze_extract {p w s : Bytes} {j : Nat} (hj : p.length + w.length ≤ j) :
    (squeeze w).length ≤ (squeeze ((p ++ (w ++ s)).extract p.length j)).length := by
  obtain ⟨k, rfl⟩ := Nat.exists_eq_add_of_le hj
  rw [List.extract, List.drop_left, Nat.add_assoc, Nat.add_sub_cancel_left,
    List.take_length_add_append, squeeze_append, List.length_append]
  exact Nat.le_add_right _ _

/-- Behind its word a remark or data stays as it is, and no blank is put in at its end. -/
theorem Respects.behind_word {p u r s : Bytes} {c : UInt8} {t : Token}
    (h : Respects gap byte (p ++ c :: (u ++ r ++ s))
      ⟨t, ⟨p.length, p.length + 1 + (u ++ r).length⟩⟩)
    (ht : StartsWith t (squeeze (c :: u))) :
    respell gap byte (p.length + 1 + u.length) r = r ∧
      gap (p.length + 1 + (u ++ r).length) = [] := by
  have hadmits : ∀ j, p.length < j → j ≤ p.length + 1 + (u ++ r).length →
      Lexeme.admitsBlank ⟨t, ⟨p.length, p.length + 1 + (u ++ r).length⟩⟩ j = false := by
    intro j hlt hle
    generalize squeeze (c :: u) = w at ht
    cases ht <;>
      simp only [Lexeme.admitsBlank, Bool.or_eq_false_iff, decide_eq_false_iff_not] <;> omega
  have hcase : ∀ j, p.length + 1 + u.length ≤ j → Lexeme.hasCase (p ++ c :: (u ++ r ++ s))
      ⟨t, ⟨p.length, p.length + 1 + (u ++ r).length⟩⟩ j = false := by
    intro j hj
    have hletters : ¬(squeeze ((p ++ c :: (u ++ r ++ s)).extract p.length j)).length <
        (squeeze (c :: u)).length := by
      rw [List.append_assoc, ← List.cons_append, Nat.not_lt]
      exact length_squeeze_extract (by rw [List.length_cons]; omega)
    generalize squeeze (c :: u) = w at ht hletters
    cases ht <;>
      simp only [Lexeme.hasCase, hletters, decide_false, Bool.and_false]
  rw [List.length_append] at h hadmits hcase ⊢
  exact ⟨h.respell_eq (by dsimp only; omega) (by dsimp only; omega)
    (fun j hle hlt => hadmits j (by omega) (by omega)) hcase,
    h.closed _ (hadmits _ (by omega) le_rfl)⟩

include hblank hupper in
/-- A token stands where it stood. -/
theorem Stands.respelt {p x z : Bytes} {c : UInt8} (hc : Byte.isBlank c = false) {t : Token}
    (h : Stands c x z t)
    (hl : Respects gap byte (p ++ c :: (x ++ z)) ⟨t, ⟨p.length, p.length + 1 + x.length⟩⟩) :
    Stands (byte p.length c) (respell gap byte (p.length + 1) x)
      (respell gap byte (p.length + 1 + x.length) z ++ gap (p.length + 1 + x.length + z.length))
      t := by
  have hsqueeze : ∀ u, squeeze (byte p.length c :: respell gap byte (p.length + 1) u) =
      squeeze (c :: u) := by
    intro u
    rw [squeeze_cons hc, squeeze_cons (by rw [isBlank_byte hupper, hc]), hupper,
      squeeze_respell hblank hupper]
  have hbehind := squeeze_behind hblank hupper (p.length + 1 + x.length) z
    (p.length + 1 + x.length + z.length)
  cases h with
  | keyword hx h => exact .keyword (tight_respell hupper _ hx) (by rw [hsqueeze, h])
  | @remark u r hx hu h hy =>
    subst hx hy
    obtain ⟨hr, hend⟩ := hl.behind_word (by rw [h]; exact .remark r)
    simp only [respell_append, hr, respell, List.length_nil, Nat.add_zero, hend, List.append_nil]
    exact .remark rfl (tight_respell hupper _ hu) (by rw [hsqueeze, h]) rfl
  | @data u f hx hu h hf hy =>
    subst hx
    obtain ⟨hf', hend⟩ := hl.behind_word (by rw [h]; exact .data _)
    rw [respell_append, hf']
    refine .data rfl (tight_respell hupper _ hu) (by rw [hsqueeze, h]) hf ?_
    cases z with
    | nil =>
      refine .inl ?_
      simp only [respell, List.length_nil, Nat.add_zero, hend, List.append_nil]
    | cons b z =>
      obtain ⟨hhead, hopen⟩ := hy.resolve_left (by simp)
      obtain rfl := Option.some.inj hhead
      -- no other byte has a colon as its upper case
      have hcolon : byte (p.length + 1 + (u ++ f).length) Byte.colon = Byte.colon := by
        have hup := hupper (p.length + 1 + (u ++ f).length) Byte.colon
        rw [← upper_of_isOther (c := byte _ _) (by rw [hup]; decide), hup]
        decide
      refine .inr ⟨?_, hopen⟩
      rw [respell, hend, List.nil_append, hcolon]
      rfl
  | @symbol name hletter hx h hk hname =>
    rw [← hupper p.length c]
    refine .symbol (by rw [isLetter_byte hupper, hletter]) (tight_respell hupper _ hx)
      (by rw [squeeze_respell hblank hupper, h]) ?_ (by rwa [hbehind])
    rwa [← List.cons_append, squeeze_append, hsqueeze, hbehind, ← squeeze_append]
  | @number v hx h hy =>
    obtain ⟨hc', hx'⟩ := hl.literal (.inl ⟨v, rfl⟩) c
    rw [hx', hc']
    refine .number hx h fun d hd => ?_
    rcases head?_behind hblank hupper hd with hd | ⟨b, hb, hd⟩
    · by_contra hnumber
      rw [(isNumberByte_bytes (by simpa using hnumber)).2.1] at hd
      cases hd
    · rw [← isNumberByte_upper, hd, isNumberByte_upper, hy b hb]
  | @string inner hquote hx h =>
    obtain ⟨hc', hx'⟩ := hl.literal (.inr ⟨inner, rfl⟩) c
    rw [hx', hc']
    exact .string hquote hx h
  | mark hx h hy =>
    refine .mark (tight_respell hupper _ hx) (by rw [hsqueeze, h]) ?_
    rwa [hbehind]

/-! ### Respelt lines -/

theorem span_of_hasCase {line : Bytes} {l : Lexeme} {i : Nat} (h : l.hasCase line i = true) :
    l.span.start ≤ i ∧ i < l.span.stop := by
  simp only [Lexeme.hasCase, Bool.and_eq_true, decide_eq_true_eq] at h
  exact h.1

/-- A letter of the first lexeme changes because of that lexeme, a letter behind it because of a
later one. -/
theorem respects_of_cons {line : Bytes} {l : Lexeme} {ls : List Lexeme}
    (hstart : ∀ l' ∈ ls, l.span.stop ≤ l'.span.start)
    (hadmitted : ∀ i, gap i ≠ [] → ∀ l' ∈ l :: ls, l'.admitsBlank i = true)
    (hcased : ∀ i, l.span.start ≤ i → ∀ c, byte i c ≠ c →
      ∃ l' ∈ l :: ls, l'.hasCase line i = true) :
    Respects gap byte line l ∧ (l.span.start ≤ l.span.stop →
      ∀ i, l.span.stop ≤ i → ∀ c, byte i c ≠ c → ∃ l' ∈ ls, l'.hasCase line i = true) := by
  refine ⟨⟨fun j hj => ?_, fun j hle hlt hj c => ?_⟩, fun hspan i hi c hne => ?_⟩
  · by_contra hne
    rw [hadmitted j hne l List.mem_cons_self] at hj
    cases hj
  · by_contra hne
    obtain ⟨l', hl', hcase⟩ := hcased j hle c hne
    rcases List.mem_cons.mp hl' with rfl | hl'
    · rw [hcase] at hj
      cases hj
    · have hlater := hstart l' hl'
      have hinside := span_of_hasCase hcase
      omega
  · obtain ⟨l', hl', hcase⟩ := hcased i (hspan.trans hi) c hne
    rcases List.mem_cons.mp hl' with rfl | hl'
    · have hinside := span_of_hasCase hcase
      omega
    · exact ⟨l', hl', hcase⟩

include hblank hupper in
/-- A respelt text has the tokens that it had. -/
theorem Lays.respelt {p z : Bytes} {ls : List Lexeme} (h : Lays [] p z ls)
    (hadmitted : ∀ i, gap i ≠ [] → ∀ l ∈ ls, l.admitsBlank i = true)
    (hcased : ∀ i, p.length ≤ i → ∀ c, byte i c ≠ c → ∃ l ∈ ls, l.hasCase (p ++ z) i = true)
    (p' : Bytes) :
    ∃ ls', Lays [] p' (respell gap byte p.length z ++ gap (p.length + z.length)) ls' ∧
      ls'.map Lexeme.token = ls.map Lexeme.token := by
  induction h generalizing p' with
  | @nil p =>
    refine ⟨[], ?_, rfl⟩
    rw [respell, List.nil_append, ← List.append_nil (gap _)]
    exact lays_blanks (hblank _) .nil
  | @blank p z c ls hc h ih =>
    rw [List.append_assoc, List.singleton_append, List.length_append, List.length_singleton] at ih
    obtain ⟨ls', h', hls'⟩ := ih hadmitted (fun i hi => hcased i (Nat.le_of_succ_le hi))
      (p' ++ gap p.length ++ [byte p.length c])
    refine ⟨ls', ?_, hls'⟩
    rw [Nat.add_assoc, Nat.add_comm 1] at h'
    rw [respell, List.append_assoc, List.cons_append, List.length_cons]
    exact lays_blanks (hblank _) (.blank (by rw [isBlank_byte hupper, hc]) h')
  | @token p x z c t ls hc ht h ih =>
    have hlength : (p ++ c :: x).length = p.length + 1 + x.length := by
      rw [List.length_append, List.length_cons]
      omega
    have hordered := (Lays.token (p := p) hc ht h).ordered
    obtain ⟨hfirst, hlater⟩ :=
      respects_of_cons (List.pairwise_cons.mp hordered).1 hadmitted hcased
    rw [List.append_assoc, List.cons_append, hlength] at ih
    obtain ⟨ls', h', hls'⟩ := ih (fun i hi l hl => hadmitted i hi l (List.mem_cons_of_mem _ hl))
      (hlater (by dsimp only; omega))
      (p' ++ gap p.length ++ byte p.length c :: respell gap byte (p.length + 1) x)
    rw [List.append_nil] at ht
    have hstands := ht.respelt hblank hupper hc hfirst
    have hlength' : p.length + (c :: (x ++ z)).length = p.length + 1 + x.length + z.length := by
      rw [List.length_cons, List.length_append]
      omega
    rw [respell, respell_append, hlength', List.append_assoc, List.cons_append, List.append_assoc]
    refine ⟨_, lays_blanks (hblank _) (.token ?_ ?_ h'), by rw [List.map_cons, List.map_cons, hls']⟩
    · rw [isBlank_byte hupper, hc]
    · rwa [List.append_nil]

end Respell

/-- A line in another spelling has the tokens that it had. -/
theorem respelling_reads_alike {line : Bytes} {ls : List Lexeme} (h : run line = .ok ls)
    (r : Respelling line ls) : Token.read r.apply = .ok (ls.map Lexeme.token) := by
  obtain ⟨ls', h', hls'⟩ := (run_eq_ok_iff.mp h).respelt r.blank r.upper r.admitted
    (fun i _ => r.cased i) []
  rw [List.length_nil, Nat.zero_add] at h'
  rw [Token.read, Respelling.apply, run_eq_ok_iff.mpr h', ← hls']
  rfl

/-! ### Spaces and small letters -/

/-- The lower-case form of an ASCII letter; every other byte is kept. -/
def lower (c : UInt8) : UInt8 :=
  if 0x41 ≤ c && c ≤ 0x5a then c + 0x20 else c

theorem upper_lower (c : UInt8) : Byte.upper (lower c) = Byte.upper c := by
  grind [Byte.upper, lower]

/-- A space in front of the bytes at certain places. -/
def spaceAt (places : List Nat) (i : Nat) : Bytes :=
  if i ∈ places then [0x20] else []

/-- Small letters at certain places. -/
def lowerAt (places : List Nat) (i : Nat) (c : UInt8) : UInt8 :=
  if i ∈ places then lower c else c

theorem isBlank_of_mem_spaceAt {places : List Nat} {i : Nat} {b : UInt8}
    (hb : b ∈ spaceAt places i) : Byte.isBlank b = true := by
  rw [spaceAt] at hb
  split at hb
  · rw [List.mem_singleton.mp hb]
    rfl
  · cases hb

theorem mem_of_spaceAt_ne_nil {places : List Nat} {i : Nat} (h : spaceAt places i ≠ []) :
    i ∈ places := by
  by_contra hi
  exact h (if_neg hi)

theorem upper_lowerAt (places : List Nat) (i : Nat) (c : UInt8) :
    Byte.upper (lowerAt places i c) = Byte.upper c := by
  rw [lowerAt]
  split
  · exact upper_lower c
  · rfl

theorem mem_of_lowerAt_ne {places : List Nat} {i : Nat} {c : UInt8} (h : lowerAt places i c ≠ c) :
    i ∈ places := by
  by_contra hi
  exact h (if_neg hi)

/-- A line with spaces put in at certain places and small letters at others. -/
def Respelling.ofPlaces {line : Bytes} {ls : List Lexeme} (spaces letters : List Nat)
    (hspaces : ∀ i ∈ spaces, ∀ l ∈ ls, l.admitsBlank i = true)
    (hletters : ∀ i ∈ letters, ∃ l ∈ ls, l.hasCase line i = true) : Respelling line ls where
  gap := spaceAt spaces
  byte := lowerAt letters
  blank _ _ hb := isBlank_of_mem_spaceAt hb
  admitted i hi := hspaces i (mem_of_spaceAt_ne_nil hi)
  upper := upper_lowerAt letters
  cased i _ hne := hletters i (mem_of_lowerAt_ne hne)

/-- Spaces inside words and an operator, and small letters up to the remark. -/
theorem respelling_reads_alike_remark :
    run (utf8 "IFXTHENY<=.5:REMGo") =
        .ok [⟨.keyword .IF, ⟨0, 2⟩⟩, ⟨.symbol (utf8 "X"), ⟨2, 3⟩⟩, ⟨.keyword .THEN, ⟨3, 7⟩⟩,
          ⟨.symbol (utf8 "Y"), ⟨7, 8⟩⟩, ⟨.mark .lessEqual, ⟨8, 10⟩⟩, ⟨.number 0.5, ⟨10, 12⟩⟩,
          ⟨.mark .colon, ⟨12, 13⟩⟩, ⟨.remark (utf8 "Go"), ⟨13, 18⟩⟩] ∧
      Token.read (utf8 "i f xt hEn y< =.5 : remGo") =
        .ok [.keyword .IF, .symbol (utf8 "X"), .keyword .THEN, .symbol (utf8 "Y"), .mark .lessEqual,
          .number 0.5, .mark .colon, .remark (utf8 "Go")] := by
  have hrun : run (utf8 "IFXTHENY<=.5:REMGo") =
      .ok [⟨.keyword .IF, ⟨0, 2⟩⟩, ⟨.symbol (utf8 "X"), ⟨2, 3⟩⟩, ⟨.keyword .THEN, ⟨3, 7⟩⟩,
        ⟨.symbol (utf8 "Y"), ⟨7, 8⟩⟩, ⟨.mark .lessEqual, ⟨8, 10⟩⟩, ⟨.number 0.5, ⟨10, 12⟩⟩,
        ⟨.mark .colon, ⟨12, 13⟩⟩, ⟨.remark (utf8 "Go"), ⟨13, 18⟩⟩] := by decide +kernel
  have halike := respelling_reads_alike hrun (.ofPlaces [1, 2, 4, 7, 9, 12, 13]
    [0, 1, 2, 3, 4, 6, 7, 13, 14, 15] (by decide +kernel) (by decide +kernel))
  rw [show Respelling.apply _ = utf8 "i f xt hEn y< =.5 : remGo" by decide +kernel] at halike
  exact ⟨hrun, halike⟩

end Lexer

end LineBasic
