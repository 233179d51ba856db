import LineBasic.Proofs.Machine.Advance
import LineBasic.Proofs.Machine.Reload
import LineBasic.Proofs.Program.Lines

/-!
# Editing a program

A program is typed in line by line. While the machine is idle, a line that starts with a line number
is an edit: it is stored in place of an earlier line of this number, or deletes that line if nothing
follows the number. It does not matter in which order lines of different numbers are typed in, or
what a line was before its last edit.

## Main definitions

* `Machine.numberedLine?` — the edit that a submitted line is
* `Machine.storeAll` — a machine after some edits

## Main results

* `Machine.load?_numbered` — numbered lines are stored one after the other
* `Machine.storeLine_comm` — edits of different lines may be made in either order
* `Machine.last_edits_decide` — the stored program depends on the last edit of each line only
-/

namespace LineBasic.Machine

/-- The edit that a submitted line is, if it is one: the number that it starts with, and the tokens
after it. -/
def numberedLine? (line : Bytes) : Option (Nat × List Token) :=
  match Token.read (Bytes.trimLineEnds line) with
  | .ok tokens => numbered? tokens
  | .error _ => none

theorem exists_numberedLine? {line : Bytes} (h : isNumbered line = true) :
    ∃ e, numberedLine? line = some e := by
  rw [isNumbered] at h
  rw [numberedLine?]
  cases hread : Token.read (Bytes.trimLineEnds line) with
  | ok tokens =>
    rw [hread] at h
    exact Option.isSome_iff_exists.mp h
  | error cause =>
    rw [hread] at h
    cases h

/-- An edit is made at once, and the machine stays idle. -/
theorem submit_numberedLine {m : Machine} (hm : m.state = .idle) {line : Bytes}
    {e : Nat × List Token} (h : numberedLine? line = some e) :
    m.submit line = (none, m.storeLine e.1 e.2) := by
  rw [numberedLine?] at h
  split at h
  · next tokens hread =>
    rw [submit_numbered hm (Lexer.read_eq_ok_iff.mp hread) h, enter_self (m := m.storeLine _ _) hm]
  · cases h

/-- A machine after edits that are made one after the other. -/
def storeAll (m : Machine) (edits : List (Nat × List Token)) : Machine :=
  edits.foldl (fun m e => m.storeLine e.1 e.2) m

theorem storeAll_program (m : Machine) (edits : List (Nat × List Token)) :
    (m.storeAll edits).program = m.program.storeAll edits := by
  induction edits generalizing m with
  | nil => rfl
  | cons e edits ih => exact ih (m.storeLine e.1 e.2)

theorem storeAll_state (m : Machine) (edits : List (Nat × List Token)) :
    (m.storeAll edits).state = m.state := by
  induction edits generalizing m with
  | nil => rfl
  | cons e edits ih => exact ih (m.storeLine e.1 e.2)

/-- Numbered lines are stored one after the other. -/
theorem load?_numbered {m : Machine} (hm : m.state = .idle) {submissions : List Bytes}
    (h : ∀ line ∈ submissions, isNumbered line = true) :
    m.load? submissions = some (m.storeAll (submissions.filterMap numberedLine?)) := by
  induction submissions generalizing m with
  | nil => rfl
  | cons line submissions ih =>
    obtain ⟨hline, hrest⟩ := List.forall_mem_cons.mp h
    obtain ⟨e, he⟩ := exists_numberedLine? hline
    rw [load?, submit_numberedLine hm he, List.filterMap_cons_some he]
    exact ih hm hrest

/-- Edits of different lines may be made in either order. -/
theorem storeLine_comm (m : Machine) {n k : Nat} (h : n ≠ k) (ts us : List Token) :
    (m.storeLine n ts).storeLine k us = (m.storeLine k us).storeLine n ts := by
  have hfunctions : ((m.storeLine n ts).storeLine k us).functions =
      ((m.storeLine k us).storeLine n ts).functions := by
    refine Std.ExtTreeMap.ext_getElem? fun name => ?_
    simp only [storeLine, Std.ExtTreeMap.getElem?_filter', Option.filter_filter]
    exact congrArg (Option.filter · _) (funext fun f => Bool.and_comm _ _)
  exact congrArg₂ (fun program functions => { m with program, functions })
    (m.program.store_comm h ts us) hfunctions

/-- After numbered lines have been submitted to an idle machine, its program has the lines whose
last edit had tokens, with these tokens, and no other lines than those and the ones that were not
edited. In ascending order they are listed, and executed one after the other; the line after a line
that is gone is the one that would have come after it. Two edits of different lines that follow each
other may be exchanged. -/
theorem last_edits_decide (m : Machine) (submissions : List Bytes) (hidle : m.state = .idle)
    (hnumbered : ∀ line ∈ submissions, isNumbered line = true) :
    ∃ m', m.load? submissions = some m' ∧ m'.state = .idle ∧
      (∃ lines : List (Nat × List Token), Ascending lines ∧
        (∀ n tokens, (n, tokens) ∈ lines ↔
          latest? (submissions.filterMap numberedLine?) n = some tokens ∧ tokens ≠ [] ∨
            latest? (submissions.filterMap numberedLine?) n = none ∧
              m.program.lines[n]? = some tokens) ∧
        m'.program.listing = (lines.flatMap fun e => Program.lineListing e.1 e.2) ∧
        (∀ k, m'.program.visit k = lines[k]?.map m'.program.atStart) ∧
        ∀ n index, { m'.program with location := ⟨.numbered n, index⟩ }.advance? =
          (lines.find? (n < ·.1)).map m'.program.atStart) ∧
      ∀ before a b after, submissions = before ++ a :: b :: after →
        (numberedLine? a).map Prod.fst ≠ (numberedLine? b).map Prod.fst →
          m.load? (before ++ b :: a :: after) = some m' := by
  refine ⟨_, load?_numbered hidle hnumbered, (storeAll_state _ _).trans hidle, ?_, ?_⟩
  · rw [storeAll_program]
    refine ⟨_, Program.ascending_toList _, fun n tokens => ?_, rfl, Program.visit_eq _,
      fun n index => Program.advance?_eq rfl⟩
    rw [Std.ExtTreeMap.mem_toList_iff_getElem?_eq_some, Program.getElem?_storeAll_eq_some]
  · rintro before a b after rfl hdifferent
    have hswapped : ∀ line ∈ before ++ b :: a :: after, isNumbered line = true := fun line hline =>
      hnumbered line (((List.Perm.swap b a after).append_left before).mem_iff.mpr hline)
    obtain ⟨⟨n, ts⟩, ha⟩ := exists_numberedLine? (hnumbered a (by simp))
    obtain ⟨⟨k, us⟩, hb⟩ := exists_numberedLine? (hnumbered b (by simp))
    have hnk : n ≠ k := by simpa [ha, hb] using hdifferent
    rw [load?_numbered hidle hswapped]
    simp only [List.filterMap_append, List.filterMap_cons_some ha, List.filterMap_cons_some hb,
      storeAll, List.foldl_append, List.foldl_cons]
    rw [storeLine_comm _ hnk]

/-- Lines typed in out of order, replaced and deleted: what is left is listed in ascending order. -/
theorem last_edits_decide_listing :
    ∃ m, (new {}).load? [utf8 "20 PRINT 2", utf8 "10 PRINT 1", utf8 "30 END", utf8 "20",
        utf8 "10 PRINT 3"] = some m ∧
      m.program.listing = utf8 "10 PRINT 3\n30 END\n" ∧
      (new {}).load? [utf8 "20 PRINT 2", utf8 "10 PRINT 1", utf8 "20", utf8 "30 END",
        utf8 "10 PRINT 3"] = some m := by
  obtain ⟨m, hload, -, -, hswap⟩ := last_edits_decide (new {})
    [utf8 "20 PRINT 2", utf8 "10 PRINT 1", utf8 "30 END", utf8 "20", utf8 "10 PRINT 3"] rfl
    (by decide +kernel)
  have hlisting : ((new {}).load? [utf8 "20 PRINT 2", utf8 "10 PRINT 1", utf8 "30 END",
      utf8 "20", utf8 "10 PRINT 3"]).map (·.program.listing) =
        some (utf8 "10 PRINT 3\n30 END\n") := by decide +kernel
  rw [hload] at hlisting
  exact ⟨m, hload, Option.some.inj hlisting,
    hswap [utf8 "20 PRINT 2", utf8 "10 PRINT 1"] (utf8 "30 END") (utf8 "20") [utf8 "10 PRINT 3"]
      rfl (by decide +kernel)⟩

end LineBasic.Machine
