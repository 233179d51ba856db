import LineBasic.Proofs.Token.Scan

/-!
# Names in front of other texts

A name is read up to the place where a word could start or where a byte stands that belongs to no
name; a dollar sign ends it at once. In upper case and without blanks it is read in the same way in
front of every text that is alike, except that a text which goes on with a digit makes it longer.

Like a word, a name ends with its last byte that is no blank. What follows it matters only through
its own squeezed text.

## Main definitions

* `Lexer.EndsName` — squeezed texts in front of which a name ends
* `Lexer.NameRest` — the further characters of a name in front of a squeezed text

## Main results

* `Lexer.NameRest.nameTail`, `Lexer.nameRest_nameTail` — the bytes that a name takes
* `Lexer.squeeze_nameTail` — a name is taken from the front of the squeezed text
* `Lexer.nameTail_rest` — where a name ends
* `Lexer.nameTail_append` — a name in front of another text
-/

namespace LineBasic.Lexer

open Command (squeeze)

/-- The bytes that a name is made of. -/
def isNameByte (c : UInt8) : Bool :=
  Byte.isLetter c || Byte.isDigit c

theorem isNameByte_upper {c : UInt8} (hc : isNameByte c = true) :
    isNameByte (Byte.upper c) = true ∧ Byte.isBlank (Byte.upper c) = false ∧
      Byte.upper (Byte.upper c) = Byte.upper c ∧ Byte.upper c ≠ Byte.dollar := by
  grind [isNameByte, Byte.isDigit, Byte.isLetter, Byte.isBlank, Byte.upper, Byte.dollar]

theorem isNameByte_eq_upper (c : UInt8) :
    isNameByte (Byte.upper c) = isNameByte c ∧ (Byte.upper c = Byte.dollar ↔ c = Byte.dollar) := by
  constructor
  · refine upper_congr (fun _ _ hc hd => ?_) c
    rw [isNameByte, isNameByte, hc, hd, Bool.true_or, Bool.true_or]
  · refine Iff.of_eq (upper_congr (f := (· = Byte.dollar)) (fun _ _ hc hd => ?_) c)
    have hletter : Byte.isLetter Byte.dollar = false := by decide
    exact propext (iff_of_false (by rintro rfl; simp [hletter] at hc)
      (by rintro rfl; simp [hletter] at hd))

/-! ### The steps of reading a name -/

theorem nameTail_nil {s : Bytes} (h : s.drop (blanks s) = []) : nameTail s = ([], 0) := by
  rw [nameTail.eq_def]
  split
  · rfl
  · next hdrop => rw [h] at hdrop; cases hdrop

theorem nameTail_cons {s : Bytes} {c : UInt8} {r : Bytes} (h : s.drop (blanks s) = c :: r) :
    nameTail s =
      if (keyword? (c :: r)).isSome then ([], 0)
      else if isNameByte c then (Byte.upper c :: (nameTail r).1, blanks s + 1 + (nameTail r).2)
      else if c == Byte.dollar then ([c], blanks s + 1)
      else ([], 0) := by
  rw [nameTail.eq_def]
  split
  · next hdrop => rw [h] at hdrop; cases hdrop
  · next hdrop =>
    rw [h] at hdrop
    cases hdrop
    rfl

/-- A name is read from byte to byte: it stops, ends with a dollar sign, or goes on. -/
theorem nameTail_induction {motive : Bytes → Prop}
    (stop : ∀ s, nameTail s = ([], 0) → motive s)
    (dollar : ∀ s r, s.drop (blanks s) = Byte.dollar :: r →
      nameTail s = ([Byte.dollar], blanks s + 1) → motive s)
    (next : ∀ s c r, s.drop (blanks s) = c :: r → isNameByte c = true → keyword? (c :: r) = none →
      nameTail s = (Byte.upper c :: (nameTail r).1, blanks s + 1 + (nameTail r).2) →
      motive r → motive s)
    (s : Bytes) : motive s := by
  induction s using nameTail.induct with
  | case1 s hdrop => exact stop s (nameTail_nil hdrop)
  | case2 s c r hdrop hk => exact stop s (by rw [nameTail_cons hdrop, if_pos hk])
  | case3 s c r hdrop hk hc name n hname ih =>
    have hc : isNameByte c = true := hc
    exact next s c r hdrop hc (by simpa using hk)
      (by rw [nameTail_cons hdrop, if_neg hk, if_pos hc]) ih
  | case4 s c r hdrop hk hc hdollar =>
    have hc : ¬isNameByte c = true := hc
    have hname := nameTail_cons hdrop
    rw [if_neg hk, if_neg hc, if_pos hdollar] at hname
    rw [beq_iff_eq] at hdollar
    subst hdollar
    exact dollar s r hdrop hname
  | case5 s c r hdrop hk hc hdollar =>
    have hc : ¬isNameByte c = true := hc
    exact stop s (by rw [nameTail_cons hdrop, if_neg hk, if_neg hc, if_neg hdollar])

/-! ### Names -/

/-- A name ends in front of this squeezed text: a word starts there, or no character of a name. -/
def EndsName (q : Bytes) : Prop :=
  (∃ w : Word, w.spelling <+: q) ∨ ∀ c ∈ q.head?, isNameByte c = false ∧ c ≠ Byte.dollar

/-- Whether a name ends here can be read off the squeezed text. -/
theorem nameTail_eq_stop_iff {s : Bytes} : nameTail s = ([], 0) ↔ EndsName (squeeze s) := by
  cases hdrop : s.drop (blanks s) with
  | nil =>
    have hs : squeeze s = [] := by
      rw [← squeeze_dropWhile, ← drop_blanks, hdrop]
      rfl
    rw [hs]
    exact ⟨fun _ => .inr (by simp), fun _ => nameTail_nil hdrop⟩
  | cons c r =>
    have hc := isBlank_of_drop_blanks hdrop
    have hs : squeeze s = squeeze (c :: r) := by
      rw [← squeeze_dropWhile, ← drop_blanks, hdrop]
    rw [hs, nameTail_cons hdrop, EndsName, ← keyword?_isSome_iff hc, squeeze_cons hc]
    simp only [List.head?_cons, Option.mem_def, Option.some.injEq, forall_eq',
      (isNameByte_eq_upper c).1, ne_eq, (isNameByte_eq_upper c).2]
    by_cases hk : (keyword? (c :: r)).isSome = true
    · simp [hk]
    · by_cases hname : isNameByte c = true
      · simp [hk, hname]
      · by_cases hdollar : c = Byte.dollar
        · subst hdollar
          simp [hk, hname]
        · simp [hk, hname, hdollar]

/-- The characters that follow the first one of a name, in front of a squeezed text: a dollar sign
ends the name, and no word starts at any other character. -/
inductive NameRest : (name q : Bytes) → Prop
  | stop {q : Bytes} (h : EndsName q) : NameRest [] q
  | dollar {q : Bytes} : NameRest [Byte.dollar] q
  | next {c : UInt8} {name q : Bytes} (hc : isNameByte c = true)
    (hk : ∀ w : Word, ¬w.spelling <+: c :: (name ++ q)) (h : NameRest name q) :
    NameRest (c :: name) q

/-- A name takes a tight text that squeezes to it. -/
theorem NameRest.nameTail {name q : Bytes} (h : NameRest name q) {x y : Bytes} (hx : Tight x)
    (hname : squeeze x = name) (hq : squeeze y = q) :
    nameTail (x ++ y) = (name, x.length) := by
  -- the induction is on the name, byte by byte; blanks inside it are passed
  induction h generalizing x with
  | stop h =>
    rw [hx.eq_nil hname, List.nil_append, List.length_nil, nameTail_eq_stop_iff, hq]
    exact h
  | dollar =>
    obtain ⟨b, c, r, rfl, hb, hc, hupper, hr, htight⟩ := hx.exists_cons hname
    obtain rfl := (isNameByte_eq_upper c).2.mp hupper
    obtain rfl := htight.eq_nil hr
    obtain ⟨hblanks, hdrop⟩ := drop_blanks_append hb hc y
    rw [List.append_assoc, List.singleton_append, nameTail_cons hdrop, hblanks,
      keyword?_of_not_letter hc (by decide), List.length_append]
    rfl
  | @next a name q ha hk h ih =>
    obtain ⟨b, c, r, rfl, hb, hc, rfl, hr, htight⟩ := hx.exists_cons hname
    obtain ⟨hblanks, hdrop⟩ := drop_blanks_append hb hc (r ++ y)
    have hnone : ¬(keyword? (c :: (r ++ y))).isSome = true := by
      rw [keyword?_isSome_iff hc, squeeze_cons hc, squeeze_append, hr, hq]
      exact fun ⟨w, hw⟩ => hk w hw
    rw [(isNameByte_eq_upper c).1] at ha
    rw [List.append_assoc, List.cons_append, nameTail_cons hdrop, if_neg hnone, if_pos ha,
      ih htight hr hq, hblanks]
    simp only [List.length_append, List.length_cons, Prod.mk.injEq, true_and]
    omega

/-- The rest of a name is a tight text that squeezes to it. -/
theorem nameRest_nameTail (s : Bytes) :
    ∃ x y, s = x ++ y ∧ x.length = (nameTail s).2 ∧ Tight x ∧ squeeze x = (nameTail s).1 ∧
      NameRest (nameTail s).1 (squeeze y) := by
  induction s using nameTail_induction with
  | stop s h =>
    rw [h]
    exact ⟨[], s, rfl, rfl, tight_nil, rfl, .stop (nameTail_eq_stop_iff.mp h)⟩
  | dollar s r hdrop h =>
    obtain ⟨b, hs, hlength, hb⟩ := eq_append_of_drop_blanks hdrop
    rw [h]
    refine ⟨b ++ [Byte.dollar], r, by simpa using hs, by simp [hlength], ?_, ?_, .dollar⟩
    · rw [tight_append (by simp), tight_cons_iff (by decide)]
      exact tight_nil
    · rw [squeeze_append, squeeze_of_isBlank hb]
      rfl
  | next s c r hdrop hc hk h ih =>
    obtain ⟨x, y, rfl, hlength, hx, hname, hrest⟩ := ih
    obtain ⟨b, hs, hblanks, hb⟩ := eq_append_of_drop_blanks hdrop
    have hcblank := isBlank_of_drop_blanks hdrop
    rw [h]
    refine ⟨b ++ c :: x, y, by simpa using hs, ?_, ?_, ?_, .next ?_ ?_ hrest⟩
    · rw [List.length_append, List.length_cons, hblanks, hlength]
      omega
    · rw [tight_append (by simp), tight_cons_iff hcblank]
      exact hx
    · rw [squeeze_append, squeeze_of_isBlank hb, squeeze_cons hcblank, hname]
      rfl
    · rw [(isNameByte_eq_upper c).1, hc]
    · intro w hw
      have hsome : (keyword? (c :: (x ++ y))).isSome := by
        rw [keyword?_isSome_iff hcblank, squeeze_cons hcblank, squeeze_append, hname]
        exact ⟨w, hw⟩
      rw [hk] at hsome
      cases hsome

/-- The rest of a name depends on what follows only through the words that reach into it. -/
theorem NameRest.mono {name q q' : Bytes} (h : NameRest name q)
    (hwords : ∀ (u : Bytes) (w : Word), w.spelling <+: u ++ q' → w.spelling <+: u ++ q)
    (hends : EndsName q → EndsName q') : NameRest name q' := by
  induction h with
  | stop h => exact .stop (hends h)
  | dollar => exact .dollar
  | @next c name q hc hk h ih =>
    exact .next hc (fun w hw => hk w (hwords (c :: name) w hw)) (ih hwords hends)

theorem endsName_nil : EndsName [] :=
  .inr (by simp)

/-- A name is taken from the front of the squeezed text. -/
theorem squeeze_nameTail (s : Bytes) :
    squeeze s = (nameTail s).1 ++ squeeze (s.drop (nameTail s).2) := by
  obtain ⟨x, y, hs, hlength, -, hname, -⟩ := nameRest_nameTail s
  have hdrop : s.drop (nameTail s).2 = y := by rw [← hlength, hs, List.drop_left]
  rw [hdrop, ← hname, ← squeeze_append, ← hs]

theorem squeeze_name (s : Bytes) : squeeze (nameTail s).1 = (nameTail s).1 := by
  induction s using nameTail_induction with
  | stop s h =>
    rw [h]
    rfl
  | dollar s r hdrop h =>
    rw [h]
    rfl
  | next s c r hdrop hc hk h ih =>
    obtain ⟨-, hblank, hupper, -⟩ := isNameByte_upper hc
    rw [h, squeeze_cons hblank, hupper, ih]

/-- The characters of a name. -/
theorem isNameByte_of_mem_nameTail {s : Bytes} {b : UInt8} (hb : b ∈ (nameTail s).1) :
    isNameByte b = true ∨ b = Byte.dollar := by
  induction s using nameTail_induction with
  | stop s h => rw [h] at hb; cases hb
  | dollar s r hdrop h =>
    rw [h, List.mem_singleton] at hb
    exact .inr hb
  | next s c r hdrop hc hk h ih =>
    rw [h] at hb
    rcases List.mem_cons.mp hb with rfl | hb
    · exact .inl (isNameByte_upper hc).1
    · exact ih hb

theorem getLast?_upper_cons {c : UInt8} (hc : isNameByte c = true) (name : Bytes) :
    (Byte.upper c :: name).getLast? = some Byte.dollar ↔ name.getLast? = some Byte.dollar := by
  cases name with
  | nil => simpa using (isNameByte_upper hc).2.2.2
  | cons d name => rw [List.getLast?_cons_cons]

/-- A name ends with a dollar sign, or where no name goes on. -/
theorem nameTail_rest (s : Bytes) :
    (nameTail s).1.getLast? = some Byte.dollar ∨ nameTail (s.drop (nameTail s).2) = ([], 0) := by
  induction s using nameTail_induction with
  | stop s h =>
    refine .inr ?_
    rw [h, List.drop_zero, h]
  | dollar s r hdrop h =>
    rw [h]
    exact .inl rfl
  | next s c r hdrop hc hk h ih =>
    rw [h, getLast?_upper_cons hc, Nat.add_assoc, Nat.add_comm 1, ← List.drop_drop, hdrop,
      List.drop_succ_cons]
    exact ih

/-- A name in front of a text that is alike ends where it ended, or goes on with that text. -/
theorem nameTail_append {s p : Bytes} (h : Alike (s.drop (nameTail s).2) p) :
    nameTail ((nameTail s).1 ++ p) =
      if (nameTail s).1.getLast? = some Byte.dollar then ((nameTail s).1, (nameTail s).1.length)
      else ((nameTail s).1 ++ (nameTail p).1, (nameTail s).1.length + (nameTail p).2) := by
  induction s using nameTail_induction with
  | stop s hname =>
    rw [hname, if_neg (by simp)]
    simp
  | dollar s r hdrop hname =>
    rw [hname, if_pos (by rfl)]
    have hd : Byte.isBlank Byte.dollar = false := by decide
    rw [List.singleton_append, nameTail_cons (by rw [blanks_cons hd]; rfl),
      keyword?_of_not_letter hd (by decide), blanks_cons hd]
    rfl
  | next s c r hdrop hc hk hname ih =>
    have hrest : s.drop (nameTail s).2 = r.drop (nameTail r).2 := by
      rw [hname, Nat.add_assoc, Nat.add_comm 1, ← List.drop_drop, hdrop, List.drop_succ_cons]
    rw [hrest] at h
    obtain ⟨hbyte, hblank, hupper, -⟩ := isNameByte_upper hc
    have hcblank := isBlank_of_drop_blanks hdrop
    have halike : Alike (c :: r) (Byte.upper c :: ((nameTail r).1 ++ p)) := by
      refine alike_append (t := Byte.upper c :: (nameTail r).1) ?_ ?_ h
      · rw [squeeze_cons hcblank, squeeze_nameTail r, List.cons_append]
      · rw [squeeze_cons hblank, hupper, squeeze_append, squeeze_name, List.cons_append]
    have hnone : keyword? (Byte.upper c :: ((nameTail r).1 ++ p)) = none := by
      rw [← Option.not_isSome_iff_eq_none, ← halike.keyword? hcblank hblank, hk]
      simp
    rw [hname, List.cons_append, nameTail_cons (by rw [blanks_cons hblank]; rfl), hnone,
      if_neg (by simp), if_pos hbyte, ih h, hupper, blanks_cons hblank]
    simp only [getLast?_upper_cons hc]
    split
    · simp only [List.length_cons, Prod.mk.injEq, true_and]
      omega
    · simp only [List.length_cons, List.cons_append, Prod.mk.injEq, true_and]
      omega

end LineBasic.Lexer
