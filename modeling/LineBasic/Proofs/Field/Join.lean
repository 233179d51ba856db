import LineBasic.Proofs.Field.Extent

/-!
# Lists of fields side by side

A comma joins two lists of fields and a colon ends one. What stands in front of the separator is
read as if the text ended there, and what stands behind a comma is read as if the text began there,
however many fields there are and whatever they hold. The one exception is a list that leaves a
quote open, since the separator is then part of the quoted text.

## Main results

* `Field.readAll_append_comma` — two lists with a comma between them
* `Field.readAll_snd_add` — the bytes that are read and those that are left
* `Field.joined_lists` — both separators, and where a list ends
-/

namespace LineBasic.Field

/-- Two lists with a comma between them are read one after the other, unless the first leaves a
quote open. -/
theorem readAll_append_comma {a : Bytes} (ha : remainder a = []) (ho : ¬LeavesOpen a) (b : Bytes) :
    (readAll (a ++ Byte.comma :: b)).1 = (readAll a).1 ++ (readAll b).1 ∧
      remainder (a ++ Byte.comma :: b) = remainder b := by
  induction a using readAll_induction with
  | stop a hstop =>
    rw [remainder_stop hstop] at ha
    rw [leavesOpen_stop_iff hstop] at ho
    obtain ⟨hvalue, hafter⟩ := read_append ha ho (d := Byte.comma) rfl b
    rw [readAll_stop hstop, readAll_comma hafter, remainder_comma hafter, hvalue]
    exact ⟨rfl, rfl⟩
  | comma a t h ih =>
    rw [remainder_comma h] at ha
    rw [leavesOpen_comma_iff h] at ho
    obtain ⟨hvalues, hremainder⟩ := ih ha ho
    obtain ⟨hfirst, hafter⟩ := read_append_of_comma h (Byte.comma :: b)
    rw [readAll_comma h, readAll_comma hafter, remainder_comma hafter, hfirst, hvalues, hremainder]
    exact ⟨rfl, rfl⟩

/-! ### Where a list ends -/

/-- The bytes of a text are those that are read and those that are left. -/
theorem readAll_snd_add (s : Bytes) : (readAll s).2 + (remainder s).length = s.length := by
  have hle := readAll_snd_le s
  rw [remainder, List.length_drop]
  omega

theorem remainder_eq_nil_iff {s : Bytes} : remainder s = [] ↔ (readAll s).2 = s.length := by
  have hsum := readAll_snd_add s
  rw [← List.length_eq_zero_iff]
  omega

/-- A list ends at the end of the text or at a colon. -/
theorem readAll_ends (s : Bytes) :
    (readAll s).2 = s.length ∨ s[(readAll s).2]? = some Byte.colon := by
  rcases remainder_eq s with hnil | ⟨r, hcolon⟩
  · exact .inl (remainder_eq_nil_iff.mp hnil)
  · right
    have hhead := congrArg List.head? hcolon
    rwa [remainder, List.head?_drop] at hhead

/-- Let a list of fields be all of a text and leave no quote open. Behind a comma the fields of
another text follow, and the list ends where they do; in front of a colon there are no further
fields, and the list ends there. Every text has at least one field, and its fields end at the end or
at a colon. -/
theorem joined_lists :
    (∀ a b : Bytes, (readAll a).2 = a.length → ¬LeavesOpen a →
      readAll (a ++ Byte.comma :: b) =
          ((readAll a).1 ++ (readAll b).1, a.length + 1 + (readAll b).2) ∧
        readAll (a ++ Byte.colon :: b) = ((readAll a).1, a.length)) ∧
      ∀ s : Bytes, (readAll s).1 ≠ [] ∧
        ((readAll s).2 = s.length ∨ s[(readAll s).2]? = some Byte.colon) := by
  refine ⟨fun a b ha ho => ⟨?_, ?_⟩, fun s => ⟨?_, readAll_ends s⟩⟩
  · obtain ⟨hvalues, hremainder⟩ := readAll_append_comma (remainder_eq_nil_iff.mpr ha) ho b
    refine Prod.ext hvalues ?_
    have hwhole := readAll_snd_add (a ++ Byte.comma :: b)
    have hsecond := readAll_snd_add b
    rw [hremainder, List.length_append, List.length_cons] at hwhole
    change (readAll (a ++ Byte.comma :: b)).2 = a.length + 1 + (readAll b).2
    omega
  · obtain ⟨hvalues, hremainder⟩ := readAll_append_colon (remainder_eq_nil_iff.mpr ha) ho b
    exact Prod.ext hvalues (readAll_snd hremainder)
  · obtain ⟨values, hvalues⟩ := readAll_eq_cons s
    rw [hvalues]
    exact List.cons_ne_nil _ _

/-- The quote of `"X:Y"Z, ` is closed, so it hides its colon but not the separators behind it. -/
theorem joined_lists_quoted :
    readAll (utf8 "\"X:Y\"Z, ") = ([.str (utf8 "X:Y"), .str []], 8) ∧
      ¬LeavesOpen (utf8 "\"X:Y\"Z, ") ∧
      readAll (utf8 "\"X:Y\"Z, ,7:8") = ([.str (utf8 "X:Y"), .str [], .num 7], 10) ∧
      readAll (utf8 "\"X:Y\"Z, :7:8") = ([.str (utf8 "X:Y"), .str []], 8) := by
  have hread : readAll (utf8 "\"X:Y\"Z, ") = ([.str (utf8 "X:Y"), .str []], 8) := by
    decide +kernel
  have hnext : readAll (utf8 "7:8") = ([.num 7], 1) := by decide +kernel
  have hfirst : after (utf8 "\"X:Y\"Z, ") = Byte.comma :: utf8 " " := by decide +kernel
  have hsecond : after (utf8 " ") = [] := by decide +kernel
  have hopen : ¬LeavesOpen (utf8 "\"X:Y\"Z, ") := by
    rw [leavesOpen_comma_iff hfirst, leavesOpen_stop_iff (by rw [hsecond]; exact nofun)]
    rintro ⟨r, hr, -⟩
    cases hr
  obtain ⟨hcomma, hcolon⟩ := joined_lists.1 _ (utf8 "7:8") (by rw [hread]; rfl) hopen
  rw [hread, hnext] at hcomma
  rw [hread] at hcolon
  exact ⟨hread, hopen, hcomma, hcolon⟩

end LineBasic.Field
