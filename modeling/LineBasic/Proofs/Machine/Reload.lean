import LineBasic.Proofs.Machine.Sound
import LineBasic.Proofs.Text.LineEnds
import LineBasic.Proofs.Token.Listing

/-!
# Loading a listing

A program is listed so that it can be typed in again. Every line of the listing is accepted by
another machine and stored under its number, with the tokens that reading the listed tokens gives.
These are the same tokens for every line that can be relisted, and for no other.

## Main definitions

* `Machine.load?` — submits lines one after the other
* `Machine.isNumbered` — whether a line starts with a line number
* `Program.listingLines` — the lines of a listing
* `Program.SameLines` — programs with the same lines

## Main results

* `Machine.submit_listing` — submitting a line of a listing
* `Machine.Ready.reloads_iff` — a listing is loaded back exactly if all its lines can be relisted
-/

namespace LineBasic

open Lexer Token

/-! ### Listings as lines -/

namespace Bytes

theorem splitOn_append {sep : UInt8} {l : Bytes} (hl : sep ∉ l) (rest : Bytes) :
    splitOn sep (l ++ sep :: rest) = l :: splitOn sep rest := by
  induction l with
  | nil => rw [List.nil_append, splitOn, if_pos (beq_self_eq_true _)]
  | cons c l ih =>
    rw [List.mem_cons, not_or] at hl
    rw [List.cons_append, splitOn, if_neg (by simpa using Ne.symm hl.1), ih hl.2]

theorem splitOn_ne_nil (sep : UInt8) (s : Bytes) : splitOn sep s ≠ [] := by
  cases s with
  | nil => simp [splitOn]
  | cons c s =>
    rw [splitOn]
    split
    · simp
    · split <;> simp

/-- A text whose lines end in a newline each. -/
theorem dropLast_splitOn_flatMap {ls : List Bytes} (h : ∀ l ∈ ls, 0x0a ∉ l) :
    (splitOn 0x0a (ls.flatMap fun l => l ++ [0x0a])).dropLast = ls := by
  induction ls with
  | nil => rfl
  | cons l ls ih =>
    rw [List.flatMap_cons, List.append_assoc, List.singleton_append,
      splitOn_append (h l List.mem_cons_self), List.dropLast_cons_of_ne_nil (splitOn_ne_nil _ _),
      ih fun l hl => h l (List.mem_cons_of_mem _ hl)]

end Bytes

namespace Program

/-- The lines of a listing. -/
def listingLines (p : Program) : List Bytes :=
  (Bytes.splitOn 0x0a p.listing).dropLast

/-- A stored line as it is listed, without its newline. -/
def relisted (line : Nat × List Token) : Bytes :=
  Bytes.decimal line.1 ++ listingAll line.2

theorem listing_eq (p : Program) :
    p.listing = (p.lines.toList.map relisted).flatMap fun l => l ++ [0x0a] := by
  rw [List.flatMap_map]
  rfl

/-- What is known about a stored line: it was read from a line without a newline and without a line
end at its end, it is not empty, and its number is one that a number denotes. -/
structure WellRead (n : Nat) (ts : List Token) : Prop where
  scans : ∃ s, Scans s ts ∧ 0x0a ∉ s ∧ ∀ b, s.getLast? = some b → Byte.isLineEnd b = false
  nonempty : ts ≠ []
  number : ∃ x, Number.lineNumber x = .ok n

theorem WellRead.newline {n : Nat} {ts : List Token} (h : WellRead n ts) :
    0x0a ∉ relisted (n, ts) := by
  obtain ⟨s, hs, hnewline, -⟩ := h.scans
  rw [relisted, List.mem_append, not_or]
  refine ⟨fun hmem => ?_, fun hmem => hnewline (newline_mem_of_listingAll hs hmem)⟩
  cases Bytes.isDigit_of_mem_decimal hmem

theorem listingLines_eq {p : Program} (h : ∀ n ts, p.lines[n]? = some ts → WellRead n ts) :
    p.listingLines = p.lines.toList.map relisted := by
  rw [listingLines, listing_eq]
  refine Bytes.dropLast_splitOn_flatMap fun l hl => ?_
  obtain ⟨⟨n, ts⟩, hmem, rfl⟩ := List.mem_map.mp hl
  exact (h n ts (Std.ExtTreeMap.mem_toList_iff_getElem?_eq_some.mp hmem)).newline

/-- Programs with the same line numbers, and with tokens that are the same on each line. -/
def SameLines (p q : Program) : Prop :=
  ∀ n : Nat, Option.Rel SameAll p.lines[n]? q.lines[n]?

end Program

namespace Machine

/-- Submits lines one after the other; `none` if one of them is refused. -/
def load? (m : Machine) : List Bytes → Option Machine
  | [] => some m
  | line :: lines =>
    match m.submit line with
    | (none, m) => m.load? lines
    | (some _, _) => none

/-- Whether a line starts with a line number. -/
def isNumbered (line : Bytes) : Bool :=
  match Token.read (Bytes.trimLineEnds line) with
  | .ok tokens => (numbered? tokens).isSome
  | .error _ => false

theorem numbered?_eq_some {ts us : List Token} {n : Nat} (h : numbered? ts = some (n, us)) :
    ∃ x, ts = .number x :: us ∧ Number.lineNumber x = .ok n := by
  unfold numbered? at h
  split at h
  · next x ts =>
    split at h
    · next k hk =>
      cases h
      exact ⟨x, rfl, hk⟩
    · cases h
  · cases h

/-- Commands start with a letter. -/
theorem command_eq_none {s : Bytes} {c : UInt8} {r : Bytes} (hdrop : s.drop (blanks s) = c :: r)
    (hc : isNumberByte c = true) : Command.read? s = none := by
  obtain ⟨hletter, hblank, -⟩ := isNumberByte_bytes hc
  have hsqueeze : Command.squeeze s = Byte.upper c :: Command.squeeze r := by
    rw [← squeeze_dropWhile, ← drop_blanks, hdrop, squeeze_cons hblank]
  refine Option.eq_none_iff_forall_ne_some.mpr fun command h => ?_
  have hmem : Byte.upper c ∈ command.spelling := by
    rw [← squeeze_of_read? h, hsqueeze]
    exact List.mem_cons_self
  have hhead := isLetter_of_mem_spelling hmem
  rw [isLetter_upper, hletter] at hhead
  cases hhead

/-- A line that starts with a line number is stored. -/
theorem submit_numbered {m : Machine} (hm : m.state = .idle) {line : Bytes} {ts us : List Token}
    {n : Nat} (hs : Scans (Bytes.trimLineEnds line) ts) (hn : numbered? ts = some (n, us)) :
    m.submit line = (none, (m.storeLine n us).enter .idle) := by
  obtain ⟨x, rfl, -⟩ := numbered?_eq_some hn
  have hcommand : Command.read? (Bytes.trimLineEnds line) = none := by
    obtain ⟨c, r, k, hdrop, -, hreads⟩ := exists_reads hs
    cases hreads with
    | number hc h => exact command_eq_none hdrop hc
  rw [submit, if_neg (by rw [hm]; simp)]
  simp only [hcommand, read_eq_ok_iff.mpr hs, hn]

theorem storeLine_lines (m : Machine) (n : Nat) (ts : List Token) :
    ((m.storeLine n ts).enter .idle).program.lines =
      if ts.isEmpty then m.program.lines.erase n else m.program.lines.insert n ts := by
  rw [enter_program]
  rfl

/-! ### What loading stores -/

/-- A machine that holds well-read lines and waits for another one. -/
structure Ready (m : Machine) : Prop where
  idle : m.state = .idle
  lines : ∀ n ts, m.program.lines[n]? = some ts → Program.WellRead n ts

theorem ready_new (o : Options) : (new o).Ready := by
  refine ⟨rfl, fun n ts h => ?_⟩
  rw [new] at h
  simp at h

theorem scans_tail {s : Bytes} {t : Token} {ts : List Token} (h : Scans s (t :: ts)) :
    ∃ r, r <:+ s ∧ Scans r ts := by
  generalize hus : t :: ts = us at h
  induction h with
  | nil => cases hus
  | @blank c s us hc h ih =>
    obtain ⟨r, hr, hscan⟩ := ih hus
    exact ⟨r, hr.trans (List.suffix_cons c s), hscan⟩
  | @token c s u n us hc hu h ih =>
    cases hus
    exact ⟨_, (List.drop_suffix n s).trans (List.suffix_cons c s), h⟩

/-- Storing a numbered line keeps a machine ready. -/
theorem Ready.submit {m : Machine} (hm : m.Ready) {line : Bytes} (hline : isNumbered line = true)
    (hnewline : 0x0a ∉ line) : ∃ m', m.submit line = (none, m') ∧ m'.Ready := by
  rw [isNumbered] at hline
  split at hline
  · next ts hts =>
    obtain ⟨⟨n, us⟩, hn⟩ := Option.isSome_iff_exists.mp hline
    have hs := read_eq_ok_iff.mp hts
    refine ⟨_, submit_numbered hm.idle hs hn, rfl, fun k ws hk => ?_⟩
    obtain ⟨x, rfl, hx⟩ := numbered?_eq_some hn
    rw [storeLine_lines] at hk
    split at hk
    · rw [Std.ExtTreeMap.getElem?_erase] at hk
      split at hk
      · cases hk
      · exact hm.lines k ws hk
    · next hempty =>
      rw [Std.ExtTreeMap.getElem?_insert] at hk
      split at hk
      · next hcompare =>
        obtain rfl := Std.LawfulEqOrd.eq_of_compare hcompare
        cases hk
        refine ⟨?_, by simpa using hempty, x, hx⟩
        obtain ⟨s, ⟨r, hr⟩, hscan⟩ := scans_tail hs
        refine ⟨s, hscan, fun hmem => ?_, fun b hb => ?_⟩
        · exact hnewline ((Bytes.prefix_trimLineEnds line).subset (by simp [← hr, hmem]))
        · apply Bytes.not_isLineEnd_trimLineEnds (s := line)
          rw [← hr, List.getLast?_append, hb]
          rfl
      · exact hm.lines k ws hk
  · cases hline

theorem Ready.load? {m m' : Machine} (hm : m.Ready) {lines : List Bytes}
    (hlines : ∀ l ∈ lines, isNumbered l = true ∧ 0x0a ∉ l) (h : m.load? lines = some m') :
    m'.Ready := by
  induction lines generalizing m with
  | nil =>
    cases h
    exact hm
  | cons line lines ih =>
    obtain ⟨hnumbered, hnewline⟩ := hlines line List.mem_cons_self
    obtain ⟨m₁, hsubmit, hm₁⟩ := hm.submit hnumbered hnewline
    rw [Machine.load?, hsubmit] at h
    exact ih hm₁ (fun l hl => hlines l (List.mem_cons_of_mem _ hl)) h

/-! ### Loading a listing -/

/-- The digits in front of a text are read as a number of their own. -/
theorem scans_decimal_iff {n : Nat} {y : Float} (hread : Number.read? (Bytes.decimal n) = some y)
    {rest : Bytes} (hrest : ∀ b ∈ rest.head?, isNumberByte b = false) {us : List Token} :
    Scans (Bytes.decimal n ++ rest) us ↔ ∃ ws, us = .number y :: ws ∧ Scans rest ws := by
  obtain ⟨d, r, hdecimal⟩ := List.exists_cons_of_ne_nil (Bytes.decimal_ne_nil n)
  have hdigits : ∀ b ∈ d :: r, isNumberByte b = true := by
    intro b hb
    rw [isNumberByte, Bytes.isDigit_of_mem_decimal (hdecimal ▸ hb)]
    rfl
  have hd := hdigits d List.mem_cons_self
  have htake := takeWhile_number (fun b hb => hdigits b (List.mem_cons_of_mem _ hb)) hrest
  have hreads : Reads d (r ++ rest) (.number y) ((r ++ rest).takeWhile isNumberByte).length :=
    .number hd (by rw [htake, ← hdecimal, hread])
  rw [htake] at hreads
  rw [hdecimal, List.cons_append, scans_cons_iff (isNumberByte_bytes hd).2.1 hreads, List.drop_left]

/-- The line number of a listed line is read back. -/
theorem scans_relisted {n : Nat} {ts : List Token} (h : Program.WellRead n ts) :
    ∃ y, Number.lineNumber y = .ok n ∧ ∀ us, Scans (Program.relisted (n, ts)) us ↔
      ∃ ws, us = .number y :: ws ∧ Scans (listingAll ts) ws := by
  obtain ⟨x, hx⟩ := h.number
  obtain ⟨y, hread, hy⟩ := Number.lineNumber_read?_decimal hx
  exact ⟨y, hy, fun us => scans_decimal_iff hread (isNumberByte_head?_listingAll ts)⟩

theorem trimLineEnds_relisted {n : Nat} {ts : List Token} (h : Program.WellRead n ts) :
    Bytes.trimLineEnds (Program.relisted (n, ts)) = Program.relisted (n, ts) := by
  obtain ⟨s, hscan, -, hlast⟩ := h.scans
  refine Bytes.trimLineEnds_of_getLast? fun b hb => ?_
  rw [Bool.eq_false_iff]
  intro hend
  have hlisting : (listingAll ts).getLast? = some b := by
    obtain ⟨t, us, rfl⟩ := List.exists_cons_of_ne_nil h.nonempty
    rw [Program.relisted, listingAll_cons, List.getLast?_append, List.getLast?_cons] at hb
    rw [listingAll_cons, List.getLast?_cons]
    simpa using hb
  rw [hlast b (getLast?_of_listingAll hscan hlisting hend)] at hend
  cases hend

/-- A listed line is stored with the tokens that the listed tokens are read as. -/
theorem submit_listing {m : Machine} (hm : m.state = .idle) {n : Nat} {ts us : List Token}
    (h : Program.WellRead n ts) (hus : Scans (listingAll ts) us) :
    m.submit (Program.relisted (n, ts)) = (none, (m.storeLine n us).enter .idle) := by
  obtain ⟨y, hy, hscans⟩ := scans_relisted h
  have hscan : Scans (Bytes.trimLineEnds (Program.relisted (n, ts))) (.number y :: us) := by
    rw [trimLineEnds_relisted h, hscans]
    exact ⟨us, rfl, hus⟩
  exact submit_numbered hm hscan (by rw [numbered?, hy])

/-- A listed line is refused only if its listed tokens cannot be read. -/
theorem exists_scans_of_submit {m m' : Machine} (hm : m.state = .idle) {n : Nat} {ts : List Token}
    (h : Program.WellRead n ts) (hsubmit : m.submit (Program.relisted (n, ts)) = (none, m')) :
    ∃ us, Scans (listingAll ts) us := by
  obtain ⟨y, -, hscans⟩ := scans_relisted h
  have hcommand : Command.read? (Program.relisted (n, ts)) = none := by
    obtain ⟨d, r, hdecimal⟩ := List.exists_cons_of_ne_nil (Bytes.decimal_ne_nil n)
    have hd : isNumberByte d = true := by
      rw [isNumberByte, Bytes.isDigit_of_mem_decimal (n := n) (by rw [hdecimal]; simp)]
      rfl
    refine command_eq_none (c := d) (r := r ++ listingAll ts) ?_ hd
    rw [Program.relisted, hdecimal, List.cons_append, blanks_cons (isNumberByte_bytes hd).2.1]
    rfl
  rw [submit, if_neg (by rw [hm]; simp)] at hsubmit
  simp only [trimLineEnds_relisted h, hcommand] at hsubmit
  cases hread : Token.read (Program.relisted (n, ts)) with
  | error e => rw [hread] at hsubmit; cases hsubmit
  | ok us =>
    obtain ⟨ws, -, hws⟩ := (hscans us).mp (read_eq_ok_iff.mp hread)
    exact ⟨ws, hws⟩

theorem scans_listingAll_ne_nil {s : Bytes} {ts us : List Token} (hs : Scans s ts) (hne : ts ≠ [])
    (h : Scans (listingAll ts) us) : us ≠ [] := by
  rintro rfl
  obtain ⟨t, ts, rfl⟩ := List.exists_cons_of_ne_nil hne
  obtain ⟨c, r, n, -, hc, ht⟩ := exists_reads hs
  obtain ⟨d, q, hlisting, hd, -⟩ := listing_head hc ht
  rw [listingAll_cons, scans_blank_iff (c := 0x20) rfl, hlisting, List.cons_append] at h
  cases h with
  | blank hblank => rw [hd] at hblank; cases hblank

/-- Loading listed lines stores each of them with the tokens that it is read as, and changes nothing
else. -/
theorem load?_relisted {m m' : Machine} (hm : m.state = .idle) {l : List (Nat × List Token)}
    (hl : ∀ p ∈ l, Program.WellRead p.1 p.2) (hkeys : l.Pairwise fun p q => p.1 ≠ q.1)
    (h : m.load? (l.map Program.relisted) = some m') :
    (∀ p ∈ l, ∃ us, Scans (listingAll p.2) us ∧ m'.program.lines[p.1]? = some us) ∧
      ∀ k, (∀ p ∈ l, p.1 ≠ k) → m'.program.lines[k]? = m.program.lines[k]? := by
  induction l generalizing m with
  | nil =>
    cases h
    exact ⟨by simp, fun _ _ => rfl⟩
  | cons p l ih =>
    obtain ⟨n, ts⟩ := p
    have hread := hl (n, ts) List.mem_cons_self
    obtain ⟨hnew, hkeys⟩ := List.pairwise_cons.mp hkeys
    rw [List.map_cons, load?] at h
    split at h
    · next m₁ hsubmit =>
      obtain ⟨us, hus⟩ := exists_scans_of_submit hm hread hsubmit
      obtain rfl : (m.storeLine n us).enter .idle = m₁ := by
        rw [submit_listing hm hread hus] at hsubmit
        exact congrArg Prod.snd hsubmit
      obtain ⟨hstored, hkept⟩ := ih (enter_state _ _)
        (fun p hp => hl p (List.mem_cons_of_mem _ hp)) hkeys h
      have hne : us.isEmpty = false := by
        obtain ⟨s, hs, -⟩ := hread.scans
        simpa using scans_listingAll_ne_nil hs hread.nonempty hus
      rw [storeLine_lines, hne] at hkept
      refine ⟨fun p hp => ?_, fun k hk => ?_⟩
      · rcases List.mem_cons.mp hp with rfl | hp
        · refine ⟨us, hus, ?_⟩
          rw [hkept n fun q hq => (hnew q hq).symm]
          simp
        · exact hstored p hp
      · rw [hkept k fun q hq => hk q (List.mem_cons_of_mem _ hq)]
        have hnk : n ≠ k := hk (n, ts) List.mem_cons_self
        simp [Std.ExtTreeMap.getElem?_insert, hnk]
    · cases h

/-- Listed lines that can be read are all accepted. -/
theorem exists_load?_relisted {m : Machine} (hm : m.state = .idle) {l : List (Nat × List Token)}
    (hl : ∀ p ∈ l, Program.WellRead p.1 p.2)
    (hscans : ∀ p ∈ l, ∃ us, Scans (listingAll p.2) us) :
    ∃ m', m.load? (l.map Program.relisted) = some m' := by
  induction l generalizing m with
  | nil => exact ⟨m, rfl⟩
  | cons p l ih =>
    obtain ⟨us, hus⟩ := hscans p List.mem_cons_self
    rw [List.map_cons, load?, submit_listing hm (hl p List.mem_cons_self) hus]
    exact ih (enter_state _ _) (fun p hp => hl p (List.mem_cons_of_mem _ hp))
      (fun p hp => hscans p (List.mem_cons_of_mem _ hp))

/-- A listing is loaded back exactly if all its lines can be relisted. -/
theorem Ready.reloads_iff {m : Machine} (hm : m.Ready) (o : Options) :
    (∃ m', (new o).load? m.program.listingLines = some m' ∧ m.program.SameLines m'.program) ↔
      ∀ (n : Nat) (ts : List Token), m.program.lines[n]? = some ts → relistable ts = true := by
  have hl : ∀ p ∈ m.program.lines.toList, Program.WellRead p.1 p.2 := fun p hp =>
    hm.lines p.1 p.2 (Std.ExtTreeMap.mem_toList_iff_getElem?_eq_some.mp hp)
  have hkeys : m.program.lines.toList.Pairwise fun p q => p.1 ≠ q.1 :=
    Std.ExtTreeMap.distinct_keys_toList.imp fun hpq heq =>
      hpq (Std.LawfulEqOrd.compare_eq_iff_eq.mpr heq)
  rw [Program.listingLines_eq hm.lines]
  constructor
  · rintro ⟨m', hload, hsame⟩ n ts hts
    obtain ⟨s, hs, -⟩ := (hm.lines n ts hts).scans
    obtain ⟨us, hus, hstored⟩ := (load?_relisted (ready_new o).idle hl hkeys hload).1 (n, ts)
      (Std.ExtTreeMap.mem_toList_iff_getElem?_eq_some.mpr hts)
    have hrel := hsame n
    rw [hts, hstored] at hrel
    cases hrel with
    | some hrel => exact (sameAll_iff_relistable hs).mp ⟨us, hus, hrel⟩
  · intro hrelistable
    have hback : ∀ p ∈ m.program.lines.toList,
        ∃ us, Scans (listingAll p.2) us ∧ SameAll p.2 us := by
      rintro ⟨n, ts⟩ hp
      obtain ⟨s, hs, -⟩ := (hl (n, ts) hp).scans
      exact (sameAll_iff_relistable hs).mpr
        (hrelistable n ts (Std.ExtTreeMap.mem_toList_iff_getElem?_eq_some.mp hp))
    obtain ⟨m', hload⟩ := exists_load?_relisted (m := new o) (ready_new o).idle hl
      fun p hp => (hback p hp).imp fun us hus => hus.1
    obtain ⟨hstored, hkept⟩ := load?_relisted (ready_new o).idle hl hkeys hload
    refine ⟨m', hload, fun n => ?_⟩
    cases hts : m.program.lines[n]? with
    | none =>
      have hempty : (new o).program.lines[n]? = none := by simp [new]
      -- a line that was not listed is not there in a new machine either
      rw [hkept n, hempty]
      · exact .none
      · rintro ⟨k, ts⟩ hp rfl
        rw [Std.ExtTreeMap.mem_toList_iff_getElem?_eq_some, hts] at hp
        cases hp
    | some ts =>
      have hp := Std.ExtTreeMap.mem_toList_iff_getElem?_eq_some.mpr hts
      obtain ⟨us, hus, hm'⟩ := hstored (n, ts) hp
      obtain ⟨ws, hws, hsame⟩ := hback (n, ts) hp
      rw [hm', hus.unique hws]
      exact .some hsame

end Machine

/-! ### Listings and their tokens -/

/-- The texts of tokens, with a single space between each two. -/
def Token.joined (ts : List Token) : Bytes :=
  List.intercalate [0x20] (ts.map Token.listing)

theorem Token.listingAll_eq_joined (t : Token) (ts : List Token) :
    listingAll (t :: ts) = 0x20 :: joined (t :: ts) := by
  induction ts generalizing t with
  | nil => simp [listingAll, joined, List.intercalate]
  | cons u ts ih =>
    rw [listingAll_cons, ih]
    simp [joined, List.intercalate]

/-- The space in front of listed tokens does not count. -/
theorem Lexer.scans_joined_iff {ts us : List Token} :
    Scans (joined ts) us ↔ Scans (listingAll ts) us := by
  cases ts with
  | nil => exact Iff.rfl
  | cons t ts => rw [listingAll_eq_joined, scans_blank_iff (c := 0x20) rfl]

/-- The tokens of a line are read back from their texts exactly if they can be relisted, and a
listing is loaded back by another machine exactly if the tokens of each of its lines can. -/
theorem listing_reads_back_iff (o o' : Options) :
    (∀ (line : Bytes) (tokens : List Token), Token.read line = .ok tokens →
      ((∃ tokens', Token.read (Token.joined tokens) = .ok tokens' ∧ SameAll tokens tokens') ↔
        relistable tokens = true)) ∧
    ∀ (lines : List Bytes) (m : Machine),
      (∀ line ∈ lines, Machine.isNumbered line = true ∧ 0x0a ∉ line) →
      (Machine.new o).load? lines = some m →
      ((∃ m', (Machine.new o').load? m.program.listingLines = some m' ∧
          m.program.SameLines m'.program) ↔
        ∀ (n : Nat) (tokens : List Token),
          m.program.lines[n]? = some tokens → relistable tokens = true) := by
  constructor
  · intro line tokens h
    simp only [read_eq_ok_iff] at h ⊢
    simp only [scans_joined_iff]
    exact sameAll_iff_relistable h
  · intro lines m hlines hload
    exact ((Machine.ready_new o).load? hlines hload).reloads_iff o'

/-- The tokens of `PRINT A$.5` are read back. The line `10 PRINT A.5` is stored, but its listing
`10 PRINT A 0.5` is not loaded back. -/
theorem listing_reads_back_print :
    (∃ tokens', Token.read (Token.joined [.keyword .PRINT, .symbol (utf8 "A$"), .number 0.5]) =
        .ok tokens' ∧
      SameAll [.keyword .PRINT, .symbol (utf8 "A$"), .number 0.5] tokens') ∧
    ∃ m, (Machine.new {}).load? [utf8 "10 PRINT A.5"] = some m ∧
      ¬∃ m', (Machine.new {}).load? m.program.listingLines = some m' ∧
        m.program.SameLines m'.program := by
  constructor
  · have hread : Token.read (utf8 "PRINT A$.5") =
        .ok [.keyword .PRINT, .symbol (utf8 "A$"), .number 0.5] := by
      have h : (Token.read (utf8 "PRINT A$.5")).toOption =
          some [.keyword .PRINT, .symbol (utf8 "A$"), .number 0.5] := by decide +kernel
      cases hread : Token.read (utf8 "PRINT A$.5") with
      | error e => rw [hread] at h; cases h
      | ok tokens => rw [hread] at h; exact congrArg _ (Option.some.inj h)
    exact ((listing_reads_back_iff {} {}).1 _ _ hread).mpr (by decide +kernel)
  · have h : ((Machine.new {}).load? [utf8 "10 PRINT A.5"]).map (·.program.lines[10]?) =
        some (some [.keyword .PRINT, .symbol (utf8 "A"), .number 0.5]) := by decide +kernel
    obtain ⟨m, hload, hline⟩ := Option.map_eq_some_iff.mp h
    refine ⟨m, hload, fun hback => ?_⟩
    have hall := ((listing_reads_back_iff {} {}).2 _ m
      (fun line hmem => by rw [List.mem_singleton.mp hmem]; decide +kernel) hload).mp hback
    exact absurd (hall 10 _ hline) (by decide +kernel)

end LineBasic
