import LineBasic.Proofs.Token.Colon

/-!
# The spans of lexemes

The span of a lexeme is where it was read from, and nothing else of the line mattered for it: the
text of the span by itself is read as the same token. Between the spans there are blanks only. When
a line cannot be read, the span of the misspelling starts where reading stopped, so the text in
front of it can be read.

## Main definitions

* `Lexer.Covers` — what the spans of the lexemes of a line say

## Main results

* `Lexer.spans_cover_line` — the spans of every line, and of every misspelling
-/

namespace LineBasic.Lexer

open Command (squeeze)

/-- The spans of lexemes take a line apart. -/
structure Covers (s : Bytes) (ls : List Lexeme) : Prop where
  /-- No span is empty. -/
  nonempty : ∀ l ∈ ls, l.span.start < l.span.stop
  /-- No span reaches past the line. -/
  within : ∀ l ∈ ls, l.span.stop ≤ s.length
  /-- The spans are in order and do not overlap. -/
  ordered : ls.Pairwise fun l l' => l.span.stop ≤ l'.span.start
  /-- A byte outside all spans is a blank. -/
  blank : ∀ (i : Nat) (hi : i < s.length),
    (∀ l ∈ ls, i < l.span.start ∨ l.span.stop ≤ i) → Byte.isBlank s[i] = true
  /-- The text of a span by itself is read as the token. -/
  alone : ∀ l ∈ ls, run (l.text s) = .ok [⟨l.token, ⟨0, l.span.stop - l.span.start⟩⟩]

/-! ### Lexemes -/

/-- A token needs nothing behind it. -/
theorem Stands.alone {c : UInt8} {x y : Bytes} {t : Token} (h : Stands c x y t) :
    Stands c x [] t := by
  cases h with
  | keyword hx h => exact .keyword hx h
  | remark hx hu h hy => exact .remark hx hu h rfl
  | data hx hu h hf hy => exact .data hx hu h hf (.inl rfl)
  | symbol hc hx h hk hname =>
    refine .symbol hc hx h (fun w hw => hk w (hw.trans ?_))
      (hname.mono (fun u w hw => hw.trans ?_) fun _ => endsName_nil)
    · rw [List.append_nil, ← List.cons_append, squeeze_append]
      exact List.prefix_append _ _
    · exact List.prefix_append_right_inj u |>.mpr List.nil_prefix
  | number hx h hy => exact .number hx h (by simp)
  | string hc hx h => exact .string hc hx h
  | mark hx h hy => exact .mark hx h (by simp [squeeze])

theorem Stands.run_eq {c : UInt8} (hc : Byte.isBlank c = false) {x y : Bytes} {t : Token}
    (h : Stands c x y t) : run (c :: x) = .ok [⟨t, ⟨0, (c :: x).length⟩⟩] := by
  have hlays : Lays [] [] (c :: (x ++ [])) _ := .token hc h.alone .nil
  rw [List.append_nil] at hlays
  rw [run_eq_ok_iff.mpr hlays, List.length_cons, List.length_nil, Nat.zero_add, Nat.add_comm]

/-- Bytes between lexemes are blanks. -/
theorem Lays.isBlank {e p z : Bytes} {ls : List Lexeme} (h : Lays e p z ls) {i : Nat}
    (hi : i < z.length)
    (hout : ∀ l ∈ ls, p.length + i < l.span.start ∨ l.span.stop ≤ p.length + i) :
    Byte.isBlank z[i] = true := by
  induction h generalizing i with
  | nil => cases hi
  | @blank p z c ls hc h ih =>
    cases i with
    | zero => exact hc
    | succ i =>
      rw [List.getElem_cons_succ]
      refine ih _ fun l hl => ?_
      have hl := hout l hl
      rw [List.length_append, List.length_singleton]
      omega
  | @token p x z c t ls hc ht h ih =>
    have hhead : p.length + i < p.length ∨ p.length + 1 + x.length ≤ p.length + i :=
      hout _ List.mem_cons_self
    -- the byte stands behind the first lexeme
    obtain ⟨k, rfl⟩ : ∃ k, i = (c :: x).length + k := by
      refine Nat.exists_eq_add_of_le ?_
      rw [List.length_cons]
      omega
    simp only [← List.cons_append, List.length_append] at hi ⊢
    rw [List.getElem_append_right (by omega)]
    simp only [Nat.add_sub_cancel_left]
    refine ih (by omega) fun l hl => ?_
    have hl := hout l (List.mem_cons_of_mem _ hl)
    rw [List.length_append]
    omega

theorem Lays.covers {line : Bytes} {ls : List Lexeme} (h : Lays [] [] line ls) :
    Covers line ls := by
  -- each lexeme is read from its own bytes alone
  have htext : ∀ l ∈ ls, ∃ c x, l.text line = c :: x ∧
      l.span.stop = l.span.start + (c :: x).length ∧
      l.span.stop ≤ line.length ∧ run (c :: x) = .ok [⟨l.token, ⟨0, (c :: x).length⟩⟩] := by
    intro l hl
    obtain ⟨q, c, x, y, hline, -, hspan, hc, ht⟩ := h.exists_stands hl
    rw [List.nil_append] at hline
    refine ⟨c, x, ?_, by rw [hspan], ?_, ht.run_eq hc⟩
    · rw [Lexeme.text, hspan, hline, List.extract, List.drop_left, Nat.add_sub_cancel_left,
        List.take_left]
    · rw [hspan, hline, List.length_append, List.length_append]
      dsimp only
      omega
  constructor
  case nonempty =>
    intro l hl
    obtain ⟨c, x, -, hstop, -, -⟩ := htext l hl
    rw [hstop, List.length_cons]
    omega
  case within =>
    intro l hl
    obtain ⟨c, x, -, -, hle, -⟩ := htext l hl
    exact hle
  case ordered => exact h.ordered
  case blank =>
    intro i hi hout
    exact h.isBlank hi (by simpa using hout)
  case alone =>
    intro l hl
    obtain ⟨c, x, htext, hstop, -, hrun⟩ := htext l hl
    rw [htext, hrun, hstop, Nat.add_sub_cancel_left]

/-! ### Misspellings -/

/-- A misspelling does not start with a letter, and reaches no further than the line. -/
theorem of_lexeme_eq_error {c : UInt8} {s : Bytes} {what : Misspelling} {n : Nat}
    (h : lexeme c s = .error (what, n)) : Byte.isLetter c = false ∧ n ≤ s.length := by
  rw [lexeme] at h
  split at h
  · cases h
  · cases h
  · cases h
  · split at h
    · cases h
    · next hletter =>
      refine ⟨by simpa using hletter, ?_⟩
      split at h
      · simp only at h
        split at h
        · cases h
        · cases h
          exact (List.takeWhile_prefix _).length_le
      · split at h
        · simp only at h
          split at h
          · cases h
            exact le_rfl
          · cases h
        · split at h
          · cases h
          · cases h
            exact Nat.zero_le _

/-- The spans of a line that can be read take it apart, with one span for each token. A line that
cannot be read is misspelt at a span that is not empty, and the text in front of it can be read. -/
theorem spans_cover_line (line : Bytes) :
    match run line with
    | .ok ls => Token.read line = .ok (ls.map Lexeme.token) ∧ Covers line ls
    | .error cause =>
      ∃ what span, cause = .misspelled what span ∧ span.start < span.stop ∧
        span.stop ≤ line.length ∧ ∃ ls, run (line.take span.start) = .ok ls := by
  cases hrun : run line with
  | ok ls => exact ⟨by rw [Token.read, hrun]; rfl, (run_eq_ok_iff.mp hrun).covers⟩
  | error cause =>
    obtain ⟨z, c, r, ls, what, n, rfl, hlays, hc, herror, rfl⟩ := exists_of_run_eq_error hrun
    obtain ⟨hletter, hn⟩ := of_lexeme_eq_error herror
    refine ⟨what, _, rfl, ?_, ?_, ls, ?_⟩
    · dsimp only
      omega
    · rw [List.length_append, List.length_cons]
      dsimp only
      omega
    · have hfront := hlays.swap (stops_cons hc hletter r) atColon_nil fun hne => absurd rfl hne
      rw [List.take_left]
      exact run_eq_ok_iff.mpr hfront

end LineBasic.Lexer
