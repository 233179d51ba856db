import LineBasic.Builtin
import LineBasic.Proofs.Field.Join
import LineBasic.Proofs.Token.ReadBack

/-!
# The readers of numbers

Numbers are read in three places: as literals in a line, as fields of data, and from strings by
`VAL`. Each place looks at the bytes in its own way before a numeral is read. A literal has no sign
and no exponent, a field has no white space around it, and `VAL` takes the longest beginning that is
a numeral. A numeral is made up of the bytes that `VAL` looks at, so `VAL` finds all of it at its
first try. The text of a number is a numeral that every place accepts as a whole.

## Main results

* `Number.isNumeralByte_of_read?` — the bytes of numerals
* `Number.leading_eq` — `VAL` reads what is a number by itself as this number
* `Number.readers_agree` — every reader gives back the number that was written
-/

namespace LineBasic

/-! ### The bytes of numerals -/

namespace Numeral

open Number (isNumeralByte)

theorem isNumeralByte_of_isDigit {c : UInt8} (hc : Byte.isDigit c = true) :
    isNumeralByte c = true := by
  simp [isNumeralByte, hc]

theorem isNumeralByte_of_takeSign {s : Bytes} (h : ∀ c ∈ (takeSign s).2, isNumeralByte c = true) :
    ∀ c ∈ s, isNumeralByte c = true := by
  rw [takeSign.eq_def] at h
  split at h
  · exact List.forall_mem_cons.mpr ⟨by decide, h⟩
  · exact List.forall_mem_cons.mpr ⟨by decide, h⟩
  · exact h

theorem isNumeralByte_of_readExponent? {s : Bytes} {e : Int} (h : readExponent? s = some e) :
    ∀ c ∈ s, isNumeralByte c = true := by
  cases s with
  | nil => simp
  | cons c s =>
    simp only [readExponent?, Option.ite_none_right_eq_some, Option.ite_none_left_eq_some,
      Bool.or_eq_true, beq_iff_eq, Bool.not_eq_true', not_or, Bool.not_eq_false] at h
    obtain ⟨hc, ⟨-, hdigits⟩, -⟩ := h
    have hs : ∀ c ∈ (takeSign s).2, Byte.isDigit c = true := List.all_eq_true.mp hdigits
    refine List.forall_mem_cons.mpr ⟨?_, isNumeralByte_of_takeSign fun c hc =>
      isNumeralByte_of_isDigit (hs c hc)⟩
    rcases hc with rfl | rfl <;> decide

/-- A text that is cut behind its first digits has only bytes of numerals if the rest has. -/
theorem isNumeralByte_of_dropWhile {s : Bytes}
    (h : ∀ c ∈ s.dropWhile Byte.isDigit, isNumeralByte c = true) :
    ∀ c ∈ s, isNumeralByte c = true := by
  intro c hc
  rw [← List.takeWhile_append_dropWhile (p := Byte.isDigit) (l := s)] at hc
  rcases List.mem_append.mp hc with hc | hc
  · exact isNumeralByte_of_isDigit (List.mem_takeWhile_imp hc)
  · exact h c hc

theorem isNumeralByte_of_read? {s : Bytes} {n : Numeral} (h : read? s = some n) :
    ∀ c ∈ s, isNumeralByte c = true := by
  apply isNumeralByte_of_takeSign
  apply isNumeralByte_of_dropWhile
  simp only [read?, Option.ite_none_left_eq_some] at h
  obtain ⟨-, h⟩ := h
  split at h
  · next r hr =>
    obtain ⟨e, hexponent, -⟩ := Option.map_eq_some_iff.mp h
    have hrest := isNumeralByte_of_dropWhile (isNumeralByte_of_readExponent? hexponent)
    simpa [hr, isNumeralByte] using hrest
  · obtain ⟨e, hexponent, -⟩ := Option.map_eq_some_iff.mp h
    exact isNumeralByte_of_readExponent? hexponent

end Numeral

namespace Number

theorem isNumeralByte_of_read? {s : Bytes} {x : Float} (h : read? s = some x) :
    ∀ c ∈ s, isNumeralByte c = true := by
  obtain ⟨n, hn, -⟩ := Option.bind_eq_some_iff.mp h
  exact Numeral.isNumeralByte_of_read? hn

/-! ### `VAL` -/

theorem isBlank_of_isNumeralByte {c : UInt8} (hc : isNumeralByte c = true) :
    Byte.isBlank c = false := by
  grind [isNumeralByte, Byte.isDigit, Byte.isBlank]

/-- A text that is a numeral is its own longest beginning that is one. -/
theorem longest_eq {s : Bytes} {x : Float} (h : read? s = some x) :
    longest s s.length = some x := by
  cases s with
  | nil => cases h
  | cons c s =>
    have htake : (c :: s).take (s.length + 1) = c :: s := List.take_length (l := c :: s)
    rw [List.length_cons, longest, htake, h]

theorem leading_eq {s : Bytes} {x : Float} (h : read? s = some x) : leading s = x := by
  have hbytes := isNumeralByte_of_read? h
  have hblanks : s.dropWhile Byte.isBlank = s := by
    cases s with
    | nil => simp
    | cons c s =>
      have hc := isBlank_of_isNumeralByte (hbytes c List.mem_cons_self)
      simp [hc]
  have hall : s.takeWhile isNumeralByte = s := List.takeWhile_eq_self_iff.mpr hbytes
  simp [leading, hblanks, hall, longest_eq h]

/-! ### Literals -/

/-- A finite number that is not negative, and not the zero with a minus, has a plus. -/
theorem signOf_eq_positive {x : Float} (hx : x.isFinite = true) (hneg : ¬ x < 0) (hzero : x ≠ -0) :
    signOf x.toModel.unpack = .positive := by
  have hpack := ofModel_pack_unpack x
  obtain ⟨s, hu⟩ | ⟨s, m, e, h, hu⟩ := unpack_of_isFinite hx
  · cases s with
    | positive => exact congrArg signOf hu
    | negative =>
      rw [hu] at hpack
      exact absurd hpack.symm hzero
  · cases s with
    | positive => exact congrArg signOf hu
    | negative =>
      have hlt : x.toModel.unpack.lt (0 : Float).toModel.unpack = true := by
        rw [hu]
        rfl
      exact absurd (decide_eq_true hlt) hneg

theorem read_write {x : Float} (hx : x.isFinite = true) (hneg : ¬ x < 0) (hzero : x ≠ -0) :
    Token.read (write x) = .ok [.number x] := by
  obtain ⟨c, r, hwrite, -, hdigit, hr⟩ := write_bytes hx
  have hc : Lexer.isNumberByte c = true := by
    simp [Lexer.isNumberByte, hdigit (signOf_eq_positive hx hneg hzero)]
  have hall : ∀ b ∈ r, Lexer.isNumberByte b = true := by
    intro b hb
    simpa [Lexer.isNumberByte] using hr b hb
  have htake : r.takeWhile Lexer.isNumberByte = r := List.takeWhile_eq_self_iff.mpr hall
  have hreads : Lexer.Reads c r (.number x) (r.takeWhile Lexer.isNumberByte).length := by
    apply Lexer.Reads.number hc
    rw [htake, ← hwrite, read?_write hx]
  rw [htake] at hreads
  rw [hwrite, Lexer.read_eq_ok_iff]
  apply Lexer.Scans.token (Lexer.isNumberByte_bytes hc).2.1 hreads
  rw [List.drop_length]
  exact .nil

/-! ### Fields -/

theorem readAll_write {x : Float} (hx : x.isFinite = true) :
    Field.readAll (write x) = ([.num x], (write x).length) := by
  have hreadable : ∀ v ∈ [Value.num x], Field.Readable v := by
    simpa [Field.Readable] using hx
  have hlist := Field.readAll_writeAll (List.cons_ne_nil _ _) hreadable
    (by simp [Field.startsWithQuote]) (t := []) ⟨.inl List.takeWhile_nil, by simp⟩
  rw [Field.writeAll_singleton, List.append_nil] at hlist
  obtain ⟨hvalues, hremainder⟩ := hlist
  have hlength := Field.remainder_eq_nil_iff.mp hremainder
  exact Prod.ext hvalues hlength

/-! ### All readers -/

/-- A finite number is read back from its text by `VAL`, as a field and as a list of fields; if it
is not negative, and not the zero with a minus, its text is also a literal. What a field of data is
as a number, `VAL` gives too. -/
theorem readers_agree (x : Float) :
    (x.isFinite = true →
      (Builtin.value .str [.num x]).bind (fun s => Builtin.value .val [s]) = .ok (.num x) ∧
      read? (write x) = some x ∧ Field.ofText (write x) = .num x ∧
      Field.readAll (write x) = ([.num x], (write x).length) ∧
      (¬ x < 0 → x ≠ -0 → Token.read (write x) = .ok [.number x])) ∧
    ∀ s, read? s = some x → Builtin.value .val [.str s] = .ok (.num x) := by
  have hval : ∀ s, read? s = some x → Builtin.value .val [.str s] = .ok (.num x) := by
    intro s hs
    simp [Builtin.value, Value.string, Except.map, leading_eq hs]
  refine ⟨fun hx => ?_, hval⟩
  have hread := read?_write hx
  exact ⟨hval _ hread, hread, (Field.plain_num hx).value, readAll_write hx, read_write hx⟩

theorem readers_agree_half :
    (Builtin.value .str [.num 0.5]).bind (fun s => Builtin.value .val [s]) = .ok (.num 0.5) ∧
      Field.readAll (write 0.5) = ([.num 0.5], (write 0.5).length) ∧
      Token.read (write 0.5) = .ok [.number 0.5] ∧
      Builtin.value .val [.str (utf8 "5E-1")] = .ok (.num 0.5) := by
  obtain ⟨hfinite, hnumeral⟩ := readers_agree 0.5
  obtain ⟨hval, -, -, hfields, hliteral⟩ := hfinite (by decide +kernel)
  have hzero : (0.5 : Float) ≠ -0 := by
    intro h
    have hbits := congrArg (fun x : Float => x.toModel.toBits) h
    revert hbits
    decide +kernel
  exact ⟨hval, hfields, hliteral (by decide +kernel) hzero, hnumeral _ (by decide +kernel)⟩

end Number

end LineBasic
