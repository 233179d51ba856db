import LineBasic.Proofs.Token.Layout

/-!
# Statements between colons

A colon belongs to no word, no name, no number and no operator, and it ends a list of fields. Two
kinds of tokens alone can take a colon that is put behind them: a remark, and data that leave a
quote open. A line without them can be read up to the colon and from the colon on, each part by
itself, and what is wrong with the second part is wrong with the whole line, only further to the
right.

The same holds of the end of a line, which every token may stand in front of. So the text in front
of the first misspelling of a line reads as it did in the line.

## Main definitions

* `Token.LeavesOpen`, `Token.Swallows` — tokens that take a colon behind them
* `Lexeme.shift`, `Cause.shift` — lexemes and misspellings further to the right

## Main results

* `Lexer.Lays.swap` — a text reads the same at the end of a line and in front of a colon
* `Lexer.colon_splits_line` — a line with a colon is read as two
-/

namespace LineBasic

open Command (squeeze)

/-- A span that is `k` bytes further to the right. -/
def Span.shift (k : Nat) (s : Span) : Span :=
  ⟨k + s.start, k + s.stop⟩

/-- A lexeme that is `k` bytes further to the right. -/
def Lexeme.shift (k : Nat) (l : Lexeme) : Lexeme :=
  ⟨l.token, l.span.shift k⟩

/-- The misspelling of a text that is `k` bytes further to the right. -/
def Cause.shift (k : Nat) : Cause → Cause
  | .misspelled what span => .misspelled what (span.shift k)
  | cause => cause

/-- Data with a field that lacks its second quote, and the text of that token. -/
def Token.LeavesOpen (t : Token) (text : Bytes) : Prop :=
  ∃ values word fields, t = .data values ∧ text = word ++ fields ∧
    squeeze word = utf8 "DATA" ∧ Field.LeavesOpen fields

/-- A token that takes all the rest of its line, and its text. -/
def Token.Swallows (t : Token) (text : Bytes) : Prop :=
  (∃ s, t = .remark s) ∨ t.LeavesOpen text

namespace Lexer

/-! ### The text behind a token -/

/-- A text that is empty or starts with a colon. -/
def AtColon (s : Bytes) : Prop :=
  ∀ c ∈ s.head?, c = Byte.colon

theorem atColon_nil : AtColon [] := by
  simp [AtColon]

theorem atColon_cons (s : Bytes) : AtColon (Byte.colon :: s) := by
  simp [AtColon]

theorem AtColon.head?_squeeze {s : Bytes} (hs : AtColon s) {d : UInt8}
    (hd : d ∈ (squeeze s).head?) : d = Byte.colon := by
  cases s with
  | nil => cases hd
  | cons c s =>
    obtain rfl := hs c rfl
    rw [squeeze_cons (by decide)] at hd
    cases hd
    rfl

theorem AtColon.stops {s : Bytes} (hs : AtColon s) : Stops s := by
  intro d hd
  rw [hs.head?_squeeze hd]
  rfl

/-- With another text behind it, a text goes on as it did, ends, or goes on with a colon. -/
theorem head?_append {z e e' : Bytes} (he' : AtColon e') {d : UInt8}
    (hd : d ∈ (z ++ e').head?) : d ∈ (z ++ e).head? ∨ d = Byte.colon := by
  cases z with
  | nil => exact .inr (he' d hd)
  | cons c z => exact .inl hd

theorem head?_squeeze_append {z e e' : Bytes} (he' : AtColon e') {d : UInt8}
    (hd : d ∈ (squeeze (z ++ e')).head?) :
    d ∈ (squeeze (z ++ e)).head? ∨ d = Byte.colon := by
  rw [squeeze_append] at hd ⊢
  cases hz : squeeze z with
  | nil =>
    rw [hz] at hd
    exact .inr (he'.head?_squeeze hd)
  | cons c q =>
    rw [hz] at hd
    exact .inl hd

/-- A token that does not swallow a colon stands in front of another text as it did, if no word
reaches into either. -/
theorem Stands.swap {c : UInt8} {x z e e' : Bytes} {t : Token} (h : Stands c x (z ++ e) t)
    (he : Stops e) (he' : AtColon e')
    (ht : e' ≠ [] → ¬t.Swallows (c :: x)) : Stands c x (z ++ e') t := by
  -- no word that starts in the text reaches into what comes behind it
  have halike : Alike (z ++ e) (z ++ e') :=
    alike_append (squeeze_append z e) (squeeze_append z e') (alike_of_stops he he'.stops)
  cases h with
  | keyword hx h => exact .keyword hx h
  | @remark u r hx hu h hy =>
    obtain ⟨rfl, rfl⟩ := List.append_eq_nil_iff.mp hy
    have hnil : e' = [] := by
      by_contra hne
      exact ht hne (.inl ⟨r, rfl⟩)
    exact .remark hx hu h hnil
  | @data u f hx hu h hf hy =>
    refine .data hx hu h hf ?_
    cases z with
    | nil =>
      cases e' with
      | nil => exact .inl rfl
      | cons d e' =>
        refine .inr ⟨congrArg some (he' d rfl), fun hopen => ?_⟩
        exact ht (by simp) (.inr ⟨_, c :: u, f, rfl, by rw [hx, List.cons_append], h, hopen⟩)
    | cons d z => exact .inr (hy.resolve_left (by simp))
  | @symbol name hc hx h hk hname =>
    refine .symbol hc hx h (fun w hw => hk w ?_) (hname.mono (fun u w hw => ?_) fun hends => ?_)
    · rw [← List.singleton_append, ← List.append_assoc, squeeze_append] at hw ⊢
      exact (halike _ w).mpr hw
    · exact (halike u w).mpr hw
    · rcases hends with ⟨w, hw⟩ | hends
      · exact .inl ⟨w, (halike [] w).mp hw⟩
      · refine .inr fun d hd => ?_
        rcases head?_squeeze_append (e := e) he' hd with hd | rfl
        · exact hends d hd
        · decide
  | number hx h hy =>
    refine .number hx h fun d hd => ?_
    rcases head?_append (e := e) he' hd with hd | rfl
    · exact hy d hd
    · rfl
  | string hc hx h => exact .string hc hx h
  | @mark m hx h hy =>
    refine .mark hx h fun d hd => ?_
    rcases head?_squeeze_append (e := e) he' hd with hd | rfl
    · exact hy d hd
    · cases m <;> rfl

/-- A text reads the same at the end of a line and in front of a colon, unless it swallows it. -/
theorem Lays.swap {e e' p z : Bytes} {ls : List Lexeme} (h : Lays e p z ls) (he : Stops e)
    (he' : AtColon e') (hls : e' ≠ [] → ∀ l ∈ ls, ¬l.token.Swallows (l.text (p ++ z))) :
    Lays e' p z ls := by
  induction h with
  | nil => exact .nil
  | @blank p z c ls hc h ih =>
    rw [List.append_assoc, List.singleton_append] at ih
    exact .blank hc (ih hls)
  | @token p x z c t ls hc ht h ih =>
    rw [List.append_assoc, List.cons_append] at ih
    refine .token hc (ht.swap he he' fun hne => ?_)
      (ih fun hne l hl => hls hne l (List.mem_cons_of_mem _ hl))
    have htext := hls hne _ List.mem_cons_self
    rwa [text_head] at htext

/-! ### A line and its parts -/

/-- Reading a text further to the right gives the same lexemes further to the right. -/
theorem runFrom_add (k i : Nat) (s : Bytes) :
    runFrom (k + i) s =
      match runFrom i s with
      | .ok ls => .ok (ls.map (Lexeme.shift k))
      | .error cause => .error (cause.shift k) := by
  fun_induction runFrom i s with
  | case1 i => rw [runFrom]; rfl
  | case2 i c s hc ih =>
    rw [runFrom, if_pos hc, Nat.add_assoc, ih]
  | case3 i c s hc what n hlexeme =>
    rw [runFrom, if_neg hc, hlexeme]
    simp only [Cause.shift, Span.shift, Nat.add_assoc]
  | case4 i c s hc t n hlexeme e hrun ih =>
    rw [hrun, ← Nat.add_assoc, ← Nat.add_assoc] at ih
    rw [runFrom, if_neg hc, hlexeme]
    simp only [ih]
  | case5 i c s hc t n hlexeme rest hrun ih =>
    rw [hrun, ← Nat.add_assoc, ← Nat.add_assoc] at ih
    rw [runFrom, if_neg hc, hlexeme]
    simp only [ih]
    simp only [List.map_cons, Lexeme.shift, Span.shift, Nat.add_assoc]

theorem runFrom_colon (i : Nat) (s : Bytes) :
    runFrom i (Byte.colon :: s) =
      (runFrom (i + 1) s).map (⟨.mark .colon, ⟨i, i + 1⟩⟩ :: ·) := by
  have hreads : Reads Byte.colon s _ _ := .mark rfl
  rw [markTail_colon] at hreads
  rw [runFrom, if_neg (by decide), lexeme_of_reads rfl hreads]
  simp only [Nat.add_zero, List.drop_zero]
  cases runFrom (i + 1) s <;> rfl

/-- A line whose first part holds no remark and leaves no quote open is read as two lines, with a
colon between them. -/
theorem colon_splits_line {a : Bytes} {ls : List Lexeme} (ha : run a = .ok ls)
    (hremark : ∀ s, Token.remark s ∉ ls.map Lexeme.token)
    (hdata : ∀ l ∈ ls, ¬l.token.LeavesOpen (l.text a)) (b : Bytes) :
    run (a ++ Byte.colon :: b) =
      match run b with
      | .ok rest =>
        .ok (ls ++ ⟨.mark .colon, ⟨a.length, a.length + 1⟩⟩ ::
          rest.map (Lexeme.shift (a.length + 1)))
      | .error cause => .error (cause.shift (a.length + 1)) := by
  have hlays : Lays (Byte.colon :: b) [] a ls := by
    refine (run_eq_ok_iff.mp ha).swap atColon_nil.stops (atColon_cons b) ?_
    rintro - l hl (⟨s, hs⟩ | hopen)
    · exact hremark s (hs ▸ List.mem_map_of_mem hl)
    · exact hdata l hl hopen
  have hrun := hlays.runFrom_eq
  rw [List.nil_append, runFrom_colon, ← Nat.add_zero (a.length + 1), runFrom_add] at hrun
  rw [run, run]
  refine hrun.trans ?_
  cases runFrom 0 b <;> rfl

/-- The quote of `DATA "X:Y",Z` is closed, so the misspelt number behind the colon is found where it
stands. -/
theorem colon_splits_line_data :
    run (utf8 "DATA \"X:Y\",Z") =
        .ok [⟨.data [.str (utf8 "X:Y"), .str (utf8 "Z")], ⟨0, 12⟩⟩] ∧
      run (utf8 "DATA \"X:Y\",Z:PRINT 1.2.3") = .error (.misspelled .invalidNumber ⟨19, 24⟩) := by
  have ha : run (utf8 "DATA \"X:Y\",Z") =
      .ok [⟨.data [.str (utf8 "X:Y"), .str (utf8 "Z")], ⟨0, 12⟩⟩] := by decide +kernel
  have hb : run (utf8 "PRINT 1.2.3") = .error (.misspelled .invalidNumber ⟨6, 11⟩) := by
    decide +kernel
  refine ⟨ha, ?_⟩
  have hsplit := colon_splits_line ha (by simp) ?_ (utf8 "PRINT 1.2.3")
  · rw [hb] at hsplit
    exact hsplit
  · simp only [List.mem_singleton, forall_eq]
    rintro ⟨values, word, fields, -, htext, hword, hopen⟩
    have hall : ∀ k ≤ 12, squeeze ((utf8 "DATA \"X:Y\",Z").take k) = utf8 "DATA" →
        Field.after ((utf8 "DATA \"X:Y\",Z").drop k) = Byte.comma :: utf8 "Z" := by decide +kernel
    have htext : utf8 "DATA \"X:Y\",Z" = word ++ fields := htext
    have hlength : word.length ≤ 12 := by
      have hsum := congrArg List.length htext
      rw [List.length_append] at hsum
      exact Nat.le_of_add_right_le hsum.ge
    have hafter := hall word.length hlength (by rw [htext, List.take_left, hword])
    rw [htext, List.drop_left] at hafter
    have hend : Field.after (utf8 "Z") = [] := by decide +kernel
    rw [Field.leavesOpen_comma_iff hafter,
      Field.leavesOpen_stop_iff (by rw [hend]; exact nofun)] at hopen
    obtain ⟨r, hr, -⟩ := hopen
    cases hr

end Lexer

end LineBasic
