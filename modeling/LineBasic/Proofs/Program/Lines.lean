import LineBasic.Proofs.Program.Sound
import LineBasic.Proofs.Program.Transfer

/-!
# The stored lines in order

Lines are stored in any order, and may be stored again or deleted. What a program holds afterwards
are the latest texts of its lines; its listing and its execution take them by ascending number. The
line after another one is looked up by its number, so it is found whether or not the other one is
still stored.

## Main definitions

* `Ascending` — lines in ascending order of their numbers
* `latest?` — what the latest of some edits stores in a line
* `Program.storeAll` — a program after some edits
* `Program.visit` — the lines of a program, as they are executed without jumps

## Main results

* `Program.getElem?_storeAll_eq_some` — a program holds the latest texts of its lines
* `Program.ascending_toList` — the stored lines are listed in ascending order
* `Program.advance?_eq` — the line after another one, which may be gone
* `Program.visit_eq` — lines are executed in the order in which they are listed
-/

namespace LineBasic

/-- Lines in ascending order of their numbers, each with its tokens. -/
def Ascending (lines : List (Nat × List Token)) : Prop :=
  lines.Pairwise fun e e' => e.1 < e'.1

/-- What the latest of some edits stores in a line, if one of them is of that line. An edit is the
number of a line and its tokens; without tokens it deletes the line. -/
def latest? (edits : List (Nat × List Token)) (n : Nat) : Option (List Token) :=
  edits.reverse.lookup n

theorem latest?_nil (n : Nat) : latest? [] n = none := rfl

/-- Later edits count before earlier ones. -/
theorem latest?_append (edits more : List (Nat × List Token)) (n : Nat) :
    latest? (edits ++ more) n = (latest? more n).or (latest? edits n) := by
  rw [latest?, List.reverse_append, List.lookup_append]
  rfl

theorem latest?_singleton (k : Nat) (tokens : List Token) (n : Nat) :
    latest? [(k, tokens)] n = if n = k then some tokens else none := by
  by_cases h : n = k
  · simp [latest?, h]
  · rw [if_neg h, latest?, List.reverse_singleton, List.lookup_cons, beq_false_of_ne h]
    rfl

theorem latest?_cons (k : Nat) (tokens : List Token) (edits : List (Nat × List Token)) (n : Nat) :
    latest? ((k, tokens) :: edits) n =
      (latest? edits n).or (if n = k then some tokens else none) := by
  rw [← latest?_singleton]
  exact latest?_append [(k, tokens)] edits n

/-- There is one ascending list of some lines. -/
theorem Ascending.eq_of_mem_iff {lines lines' : List (Nat × List Token)} (h : Ascending lines)
    (h' : Ascending lines') (hmem : ∀ e, e ∈ lines ↔ e ∈ lines') : lines = lines' := by
  have hnodup : ∀ {l : List (Nat × List Token)}, Ascending l → l.Nodup := fun hl =>
    List.Pairwise.imp (fun hlt heq => Nat.ne_of_lt hlt (congrArg Prod.fst heq)) hl
  exact List.Perm.eq_of_pairwise (fun _ _ _ _ hlt hgt => absurd hgt (Nat.lt_asymm hlt)) h h'
    ((List.perm_ext_iff_of_nodup (hnodup h) (hnodup h')).mpr hmem)

/-- The first line above a line of an ascending list is the next one in the list. -/
theorem Ascending.find?_lt {lines : List (Nat × List Token)} (h : Ascending lines) {k : Nat}
    {e : Nat × List Token} (he : lines[k]? = some e) : lines.find? (e.1 < ·.1) = lines[k + 1]? := by
  induction lines generalizing k with
  | nil => cases he
  | cons d lines ih =>
    obtain ⟨hd, hlines⟩ := List.pairwise_cons.mp h
    cases k with
    | zero =>
      obtain rfl : d = e := Option.some.inj he
      rw [List.find?_cons_of_neg (by simp)]
      cases lines with
      | nil => rfl
      | cons d' lines => exact List.find?_cons_of_pos (by simpa using hd d' List.mem_cons_self)
    | succ k =>
      have hlt : d.1 < e.1 := hd e (List.mem_of_getElem? he)
      rw [List.find?_cons_of_neg (by simpa using Nat.le_of_lt hlt)]
      exact ih hlines he

/-- The key after a number is that of the first entry above it. -/
theorem getKeyGT?_eq_find? {β : Type} (t : Std.ExtTreeMap Nat β) (n : Nat) :
    t.getKeyGT? n = (t.toList.find? (n < ·.1)).map Prod.fst := by
  have hkeys : t.getKeyGT? n = t.keys.find? (n < ·) := by
    obtain ⟨⟨q⟩⟩ := t
    -- a map is a tree up to its shape, and the look-up is that of any such tree
    induction q using Quotient.inductionOn with
    | h t =>
      change t.inner.getKeyGT? n = t.inner.keys.find? (n < ·)
      rw [Std.DTreeMap.Internal.Impl.getKeyGT?_eq_getEntryGT?,
        Std.DTreeMap.Internal.Impl.getEntryGT?_eq_find? t.wf.ordered,
        Std.DTreeMap.Internal.Impl.keys_eq_keys, Std.Internal.List.keys_eq_map, List.find?_map]
      congr 2
      funext e
      rw [Bool.eq_iff_iff, Ordering.isGT_iff_eq_gt, Nat.compare_eq_gt]
      exact decide_eq_true_iff.symm
  rw [hkeys, ← Std.ExtTreeMap.map_fst_toList_eq_keys, List.find?_map]
  rfl

namespace Program

variable {p : Program}

/-! ### Edits -/

/-- The program after edits that are made one after the other. -/
def storeAll (p : Program) (edits : List (Nat × List Token)) : Program :=
  edits.foldl (fun p e => p.store e.1 e.2) p

theorem getElem?_store_self (p : Program) (n : Nat) (tokens : List Token) :
    (p.store n tokens).lines[n]? = if tokens = [] then none else some tokens := by
  rw [store]
  cases tokens with
  | nil => exact Std.ExtTreeMap.getElem?_erase_self
  | cons t ts => exact Std.ExtTreeMap.getElem?_insert_self

/-- A line holds what was stored there last, unless that was nothing. -/
theorem getElem?_storeAll_eq_some {edits : List (Nat × List Token)} {n : Nat}
    {tokens : List Token} :
    (p.storeAll edits).lines[n]? = some tokens ↔
      latest? edits n = some tokens ∧ tokens ≠ [] ∨
        latest? edits n = none ∧ p.lines[n]? = some tokens := by
  induction edits generalizing p with
  | nil => simp [storeAll, latest?_nil]
  | cons e edits ih =>
    obtain ⟨k, ts⟩ := e
    change ((p.store k ts).storeAll edits).lines[n]? = some tokens ↔ _
    rw [ih, latest?_cons]
    cases latest? edits n with
    | some us => simp
    | none =>
      by_cases hn : n = k
      · subst hn
        rw [getElem?_store_self]
        by_cases hts : ts = [] <;> simp [hts]
        rintro rfl
        exact hts
      · rw [getElem?_store_of_ne p ts (Ne.symm hn)]
        simp [hn]

/-- Edits of different lines may be made in either order. -/
theorem store_comm (p : Program) {n k : Nat} (h : n ≠ k) (ts us : List Token) :
    (p.store n ts).store k us = (p.store k us).store n ts := by
  have hlines : ((p.store n ts).store k us).lines = ((p.store k us).store n ts).lines := by
    refine Std.ExtTreeMap.ext_getElem? fun i => ?_
    by_cases hn : i = n
    · subst hn
      rw [getElem?_store_of_ne _ us (Ne.symm h), getElem?_store_self, getElem?_store_self]
    · rw [getElem?_store_of_ne _ ts (Ne.symm hn)]
      by_cases hk : i = k
      · subst hk
        rw [getElem?_store_self, getElem?_store_self]
      · rw [getElem?_store_of_ne _ us (Ne.symm hk), getElem?_store_of_ne _ us (Ne.symm hk),
          getElem?_store_of_ne _ ts (Ne.symm hn)]
  exact congrArg (fun lines => { p.store n ts with lines }) hlines

/-! ### The order of the lines -/

theorem ascending_toList (p : Program) : Ascending p.lines.toList :=
  Std.ExtTreeMap.ordered_keys_toList.imp fun h => Nat.compare_eq_lt.mp h

/-- A program at the start of a line. -/
def atStart (p : Program) (line : Nat × List Token) : Program :=
  { p with location := (Line.numbered line.1).start, current := line.2 }

theorem moveTo?_start {n : Nat} {tokens : List Token} (h : p.lines[n]? = some tokens) :
    p.moveTo? (Line.numbered n).start = some (p.atStart (n, tokens)) := by
  have htokens : p.tokensOf? (Line.numbered n).start.line = some tokens := h
  exact moveTo?_eq htokens (Nat.zero_le _)

/-- Moving to the line that was looked for among the stored ones. -/
theorem bind_moveTo?_start (p : Program) {found : Option (Nat × List Token)}
    (h : ∀ e, found = some e → e ∈ p.lines.toList) :
    ((found.map Prod.fst).bind fun n => p.moveTo? (Line.numbered n).start) =
      found.map p.atStart := by
  cases found with
  | none => rfl
  | some e => exact moveTo?_start (Std.ExtTreeMap.mem_toList_iff_getElem?_eq_some.mp (h e rfl))

theorem startAtFirst?_eq (p : Program) :
    p.startAtFirst? = p.lines.toList.head?.map p.atStart := by
  rw [startAtFirst?, Std.ExtTreeMap.minKey?_eq_head?_keys, ← Std.ExtTreeMap.map_fst_toList_eq_keys,
    List.head?_map]
  exact bind_moveTo?_start p fun e he => List.mem_of_head? he

/-- The line after a number is the first one above it, whether or not there is a line of that
number. -/
theorem advance?_eq {n : Nat} (h : p.location.line = .numbered n) :
    p.advance? = (p.lines.toList.find? (n < ·.1)).map p.atStart := by
  rw [advance?, h]
  change (p.lines.getKeyGT? n).bind _ = _
  rw [getKeyGT?_eq_find?]
  exact bind_moveTo?_start p fun e he => List.mem_of_find?_eq_some he

/-- The lines as they are executed without jumps: the first one, and then each time the line after
the one before, as long as there is one. -/
def visit (p : Program) : (k : Nat) → Option Program
  | 0 => p.startAtFirst?
  | k + 1 => (p.visit k).bind advance?

/-- Lines are executed as they are listed, each once, until there are no more. -/
theorem visit_eq (p : Program) (k : Nat) : p.visit k = p.lines.toList[k]?.map p.atStart := by
  induction k with
  | zero => rw [visit, startAtFirst?_eq, List.head?_eq_getElem?]
  | succ k ih =>
    rw [visit, ih]
    cases hentry : p.lines.toList[k]? with
    | none =>
      rw [List.getElem?_eq_none (Nat.le_succ_of_le (List.getElem?_eq_none_iff.mp hentry))]
      rfl
    | some e =>
      rw [← p.ascending_toList.find?_lt hentry]
      exact advance?_eq (p := p.atStart e) rfl

end Program

end LineBasic
