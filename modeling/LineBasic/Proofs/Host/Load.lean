import LineBasic.Host.Session
import LineBasic.Proofs.Machine.Edit
import LineBasic.Proofs.Machine.Rerun
import LineBasic.Proofs.Text.Trim

/-!
# Loading a program file

The lines of a program file are submitted like lines that are typed in, and a line is refused if
something is wrong with it or if the machine is not idle after it. Numbered lines are taken. So are
commands that leave the machine idle, though they are no lines of a program: a listing is shown,
tracing is switched, and a `RUN` does nothing but clear the machine as long as no line is stored.

## Main definitions

* `Machine.command?` — the command that a submitted line is
* `Command.StaysIdle` — commands after which an idle machine is still idle
* `Program.Takes` — the lines that loading takes
* `Machine.Loaded` — a machine after lines that were taken

## Main results

* `Machine.submit_idle_iff` — the lines after which the machine is idle
* `Machine.loaded_submit` — what such a line does
* `Session.load_takes` — which files are loaded, and what they leave behind
-/

namespace LineBasic

/-! ### Lines without tokens -/

/-- A text without tokens is blank. -/
theorem Lexer.isBlank_of_scans_nil {s : Bytes} (h : Scans s []) :
    ∀ c ∈ s, Byte.isBlank c = true := by
  generalize hts : ([] : List Token) = ts at h
  induction h with
  | nil => nofun
  | blank hc _ ih => exact List.forall_mem_cons.mpr ⟨hc, ih hts⟩
  | token => cases hts

/-- Blanks and line ends are white space. -/
theorem Bytes.isWhite_of_blank {s : Bytes}
    (h : ∀ c ∈ s, Byte.isBlank c = true ∨ Byte.isLineEnd c = true) : Bytes.isWhite s = true := by
  have hstart := Space.not_starts_dropLeading Space.proper_encodings 0 s
  rw [isWhite, trimStart, List.isEmpty_iff]
  have hsuffix := Space.dropLeading_suffix Space.encodings 0 s
  cases hrest : Space.dropLeading Space.encodings 0 s with
  | nil => rfl
  | cons c r =>
    rw [hrest] at hstart hsuffix
    have hmem := Space.mem_encodings (h c (hsuffix.subset List.mem_cons_self))
    exact absurd ⟨[c], hmem, List.prefix_append [c] r⟩ hstart

/-- Only white lines have no tokens. -/
theorem Bytes.isWhite_of_read_nil {line : Bytes} (h : Token.read (trimLineEnds line) = .ok []) :
    Bytes.isWhite line = true := by
  have hblank := Lexer.isBlank_of_scans_nil (Lexer.read_eq_ok_iff.mp h)
  exact isWhite_of_blank fun c hc => (mem_or_isLineEnd hc).imp_left (hblank c)

/-! ### One line -/

/-- The commands that leave an idle machine with this program idle. -/
def Command.StaysIdle (p : Program) : Command → Prop
  | .list | .trace | .noTrace => True
  | .run => p.lines = ∅
  | .new | .cont => False

/-- The command that a submitted line is. -/
def Machine.command? (line : Bytes) : Option Command :=
  Command.read? (Bytes.trimLineEnds line)

/-- A line that loading takes. -/
def Program.Takes (p : Program) (line : Bytes) : Prop :=
  Machine.isNumbered line = true ∨ ∃ c, Machine.command? line = some c ∧ c.StaysIdle p

/-- All lines are taken one after the other. Each of them finds the edits of the earlier ones. -/
def Program.TakesAll (p : Program) (lines : List Bytes) : Prop :=
  ∀ before line after, lines = before ++ line :: after →
    (p.storeAll (before.filterMap Machine.numberedLine?)).Takes line

namespace Machine

variable {m m' m'' : Machine} {p q : Program} {line : Bytes} {lines : List Bytes}

/-- Whether an idle machine is idle after a command. -/
theorem runCommand_idle_iff (hm : m.state = .idle) (c : Command) :
    (m.runCommand c).1 = none ∧ (m.runCommand c).2.state = .idle ↔ c.StaysIdle m.program := by
  cases c with
  | list => exact iff_of_true ⟨rfl, rfl⟩ trivial
  | trace => exact iff_of_true ⟨rfl, hm⟩ trivial
  | noTrace => exact iff_of_true ⟨rfl, hm⟩ trivial
  | new => exact iff_of_false (fun h => State.noConfusion h.2) id
  | run =>
    by_cases hnone : m.program.lines = ∅
    · rw [runCommand_run_of_none hm hnone]
      exact iff_of_true ⟨rfl, hm⟩ hnone
    · obtain ⟨n, tokens, hfirst⟩ := Program.startAtFirst?_eq_some hnone
      rw [runCommand_run_of_some (hfirst m.program.reset rfl)]
      exact iff_of_false (fun h => State.noConfusion h.2) hnone
  | cont =>
    refine iff_of_false ?_ id
    rw [runCommand.eq_def]
    dsimp only
    split
    · exact fun h => State.noConfusion h.2
    · exact fun h => Option.some_ne_none _ h.1

theorem isNumbered_eq (line : Bytes) : isNumbered line = (numberedLine? line).isSome := by
  rw [isNumbered, numberedLine?]
  cases Token.read (Bytes.trimLineEnds line) with
  | ok tokens => rfl
  | error cause => rfl

/-- No command starts with a number. -/
theorem command?_of_numbered {e : Nat × List Token} (h : numberedLine? line = some e) :
    command? line = none := by
  rw [numberedLine?] at h
  split at h
  · next tokens hread =>
    obtain ⟨x, rfl, -⟩ := numbered?_eq_some h
    obtain ⟨c, r, k, hdrop, -, hreads⟩ := Lexer.exists_reads (Lexer.read_eq_ok_iff.mp hread)
    cases hreads with
    | number hc _ => exact command_eq_none hdrop hc
  · cases h

/-- After a line that is not white, an idle machine is idle exactly if loading takes the line. -/
theorem submit_idle_iff (hm : m.state = .idle) (hline : Bytes.isWhite line = false) :
    (m.submit line).1 = none ∧ (m.submit line).2.state = .idle ↔ m.program.Takes line := by
  rw [Program.Takes, isNumbered_eq]
  cases hnumbered : numberedLine? line with
  | some e =>
    rw [submit_numberedLine hm hnumbered]
    exact iff_of_true ⟨rfl, hm⟩ (.inl rfl)
  | none =>
    cases hcommand : command? line with
    | some c =>
      have hstopped : m.Stopped := by simp [Stopped, hm]
      rw [submit_command hstopped hcommand, runCommand_idle_iff hm]
      simp
    | none =>
      refine iff_of_false ?_ (by simp)
      rw [command?] at hcommand
      rw [numberedLine?] at hnumbered
      rw [submit, if_neg (by rw [hm]; simp)]
      simp only [hcommand]
      cases hread : Token.read (Bytes.trimLineEnds line) with
      | error cause => exact fun h => Option.some_ne_none _ h.1
      | ok tokens =>
        rw [hread] at hnumbered
        simp only [hnumbered]
        split
        · next hempty =>
          rw [List.isEmpty_iff.mp hempty] at hread
          rw [Bytes.isWhite_of_read_nil hread] at hline
          cases hline
        · exact fun h => State.noConfusion h.2

/-! ### Lines that are taken -/

/-- How a line switches tracing, if it does. -/
def switch? (line : Bytes) : Option Bool :=
  match command? line with
  | some .trace => some true
  | some .noTrace => some false
  | _ => none

/-- What an idle machine shows for lines that it takes: a listing for each `LIST`, unless there is
nothing to list. -/
def listings (p : Program) : List Bytes → List Event
  | [] => []
  | line :: lines =>
    (if command? line = some .list ∧ p.listing ≠ [] then [.print p.listing] else []) ++
      listings (p.storeAll (numberedLine? line).toList) lines

/-- `m'` is the idle machine `m` after lines that it has taken. -/
structure Loaded (m : Machine) (taken : List Bytes) (m' : Machine) : Prop where
  idle : m'.state = .idle
  lines : m'.program.lines = (m.program.storeAll (taken.filterMap numberedLine?)).lines
  tracing : m'.tracing = (taken.filterMap switch?).getLast?.getD m.tracing
  output : m'.output.toList = m.output.toList ++ listings m.program taken

theorem storeAll_congr (h : p.lines = q.lines) (edits : List (Nat × List Token)) :
    (p.storeAll edits).lines = (q.storeAll edits).lines := by
  induction edits generalizing p q with
  | nil => exact h
  | cons e edits ih =>
    refine ih (p := p.store e.1 e.2) (q := q.store e.1 e.2) ?_
    rw [Program.store, Program.store, h]

theorem listings_congr (h : p.lines = q.lines) (taken : List Bytes) :
    listings p taken = listings q taken := by
  induction taken generalizing p q with
  | nil => rfl
  | cons line taken ih =>
    have hlisting : p.listing = q.listing := by rw [Program.listing, Program.listing, h]
    rw [listings, listings, hlisting, ih (storeAll_congr h _)]

theorem takes_congr (h : p.lines = q.lines) : p.Takes line ↔ q.Takes line := by
  have hidle : ∀ c : Command, c.StaysIdle p ↔ c.StaysIdle q := by
    intro c
    cases c <;> simp [Command.StaysIdle, h]
  simp only [Program.Takes, hidle]

/-- The first line is taken, and the others after it. -/
theorem takesAll_cons (h : q.lines = (p.storeAll ([line].filterMap numberedLine?)).lines) :
    p.TakesAll (line :: lines) ↔ p.Takes line ∧ q.TakesAll lines := by
  have hedits : ∀ before : List Bytes,
      (p.storeAll ((line :: before).filterMap numberedLine?)).lines =
        (q.storeAll (before.filterMap numberedLine?)).lines := by
    intro before
    rw [storeAll_congr h, Program.storeAll, Program.storeAll, Program.storeAll, ← List.foldl_append,
      ← List.filterMap_append]
    rfl
  constructor
  · intro hall
    refine ⟨hall [] line lines rfl, fun before l after hlines => ?_⟩
    rw [← takes_congr (hedits before)]
    exact hall (line :: before) l after (by rw [hlines]; rfl)
  · rintro ⟨hline, hall⟩ before l after hlines
    cases before with
    | nil =>
      obtain ⟨rfl, -⟩ := List.cons.inj hlines
      exact hline
    | cons first before =>
      obtain ⟨rfl, hrest⟩ := List.cons.inj hlines
      rw [takes_congr (hedits before)]
      exact hall before l after hrest

theorem Loaded.nil (hm : m.state = .idle) : m.Loaded [] m :=
  ⟨hm, rfl, rfl, (List.append_nil _).symm⟩

theorem Loaded.cons (h : m.Loaded [line] m') (h' : m'.Loaded lines m'') :
    m.Loaded (line :: lines) m'' where
  idle := h'.idle
  lines := by
    rw [h'.lines, storeAll_congr h.lines, Program.storeAll, Program.storeAll, Program.storeAll,
      ← List.foldl_append, ← List.filterMap_append]
    rfl
  tracing := by
    have hfirst := h.tracing
    rw [h'.tracing, hfirst, List.filterMap_cons, List.filterMap_cons]
    cases switch? line with
    | none => rfl
    | some on => simp [List.getLast?_cons]
  output := by
    have hsingle : [line].filterMap numberedLine? = (numberedLine? line).toList := by
      cases hline : numberedLine? line <;> simp [hline]
    have hlines := h.lines
    rw [hsingle] at hlines
    rw [h'.output, h.output, List.append_assoc, listings, listings, listings, listings_congr hlines,
      List.append_nil]

/-- An edit leaves tracing and the output alone. -/
theorem loaded_storeLine (hm : m.state = .idle) {e : Nat × List Token}
    (h : numberedLine? line = some e) : m.Loaded [line] (m.storeLine e.1 e.2) := by
  have hcommand := command?_of_numbered h
  refine ⟨hm, ?_, ?_, ?_⟩
  · simp [h, Program.storeAll, storeLine]
  · simp [switch?, hcommand, storeLine]
  · simp [listings, hcommand, storeLine]

/-- What a command does that leaves the machine idle. -/
theorem loaded_runCommand (hm : m.state = .idle) {c : Command} (h : command? line = some c)
    (hc : c.StaysIdle m.program) : m.Loaded [line] (m.runCommand c).2 := by
  have hnumbered : numberedLine? line = none := by
    cases hline : numberedLine? line with
    | none => rfl
    | some e =>
      rw [command?_of_numbered hline] at h
      cases h
  have hidle := ((runCommand_idle_iff hm c).mpr hc).2
  have hlines : (m.program.storeAll ([line].filterMap numberedLine?)).lines = m.program.lines := by
    simp [hnumbered, Program.storeAll]
  cases c with
  | list =>
    have hlist : (m.runCommand .list).2 =
        if m.program.listing = [] then m.record (.command (Command.spelling .list))
        else (m.record (.command (Command.spelling .list))).emit (.print m.program.listing) := by
      have hlisting : (m.record (.command (Command.spelling .list))).program.listing =
        m.program.listing := rfl
      rw [runCommand.eq_def]
      simp only [hlisting, List.isEmpty_iff]
      split
      · exact enter_self hm
      · exact enter_self hm
    rw [hlist]
    by_cases hempty : m.program.listing = []
    · rw [if_pos hempty]
      refine ⟨hm, hlines.symm, by simp [switch?, h]; rfl, ?_⟩
      simp [listings, hempty, record]
    · rw [if_neg hempty]
      refine ⟨hm, hlines.symm, by simp [switch?, h]; rfl, ?_⟩
      simp [listings, h, hempty, record, emit]
  | trace => exact ⟨hidle, hlines.symm, by simp [switch?, h]; rfl, by simp [listings, h]; rfl⟩
  | noTrace => exact ⟨hidle, hlines.symm, by simp [switch?, h]; rfl, by simp [listings, h]; rfl⟩
  | run =>
    rw [runCommand_run_of_none hm hc]
    refine ⟨hm, hlines.symm, by simp [switch?, h]; rfl, by simp [listings, h]; rfl⟩
  | new => exact hc.elim
  | cont => exact hc.elim

/-- An idle machine does what is said of a line that it takes. -/
theorem loaded_submit (hm : m.state = .idle) (h : m.program.Takes line) :
    m.Loaded [line] (m.submit line).2 := by
  cases hnumbered : numberedLine? line with
  | some e =>
    rw [submit_numberedLine hm hnumbered]
    exact loaded_storeLine hm hnumbered
  | none =>
    rw [Program.Takes, isNumbered_eq, hnumbered] at h
    obtain ⟨c, hcommand, hc⟩ := h.resolve_left nofun
    have hstopped : m.Stopped := by simp [Stopped, hm]
    rw [submit_command hstopped hcommand]
    exact loaded_runCommand hm hcommand hc

end Machine

/-! ### A file -/

namespace Session

variable {s : Session}

/-- The lines of a file that count: those that are not white. -/
def textLines (text : Bytes) : List Bytes :=
  (LineReader.fileLines text).1.filter (!Bytes.isWhite ·)

/-- A line that is not taken is reported. -/
theorem loadLines_refused (hs : s.machine.state = .idle) (n : Nat) {line : Bytes}
    (hwhite : ¬Bytes.isWhite line = true) (h : ¬s.machine.program.Takes line)
    (lines : List Bytes) : (s.loadLines n (line :: lines)).1 ≠ none := by
  have hidle := Machine.submit_idle_iff hs (Bool.eq_false_iff.mpr hwhite)
  rw [loadLines, if_neg hwhite]
  cases hsubmit : s.machine.submit line with
  | mk fault machine =>
    rw [hsubmit] at hidle
    cases fault with
    | some fault => exact nofun
    | none =>
      dsimp only
      rw [if_neg fun hstate => h (hidle.mp ⟨rfl, hstate⟩)]
      exact nofun

/-- Loading goes on exactly as long as lines are taken. -/
theorem loadLines_takes (hs : s.machine.state = .idle) (n : Nat) (lines : List Bytes) :
    ((s.loadLines n lines).1 = none ↔
      s.machine.program.TakesAll (lines.filter (!Bytes.isWhite ·))) ∧
    ((s.loadLines n lines).1 = none → ∃ m, (s.loadLines n lines).2 = { s with machine := m } ∧
      s.machine.Loaded (lines.filter (!Bytes.isWhite ·)) m) := by
  induction lines generalizing s n with
  | nil =>
    refine ⟨iff_of_true rfl fun before line after h => ?_, fun _ => ⟨s.machine, rfl, .nil hs⟩⟩
    simp at h
  | cons line lines ih =>
    rw [loadLines]
    by_cases hwhite : Bytes.isWhite line = true
    · rw [if_pos hwhite, List.filter_cons_of_neg (by simp [hwhite])]
      exact ih hs (n + 1)
    · rw [if_neg hwhite, List.filter_cons_of_pos (by simp [hwhite])]
      have hidle := Machine.submit_idle_iff hs (Bool.eq_false_iff.mpr hwhite)
      by_cases htakes : s.machine.program.Takes line
      · have hloaded := Machine.loaded_submit hs htakes
        obtain ⟨hfault, hstate⟩ := hidle.mpr htakes
        obtain ⟨m, hm⟩ : ∃ m, s.machine.submit line = (none, m) := ⟨_, Prod.ext hfault rfl⟩
        rw [hm] at hloaded hstate
        simp only [hm, if_pos hstate]
        rw [Machine.takesAll_cons hloaded.lines]
        obtain ⟨hiff, hback⟩ := ih (s := { s with machine := m }) hstate (n + 1)
        refine ⟨hiff.trans (by simp [htakes]), fun h => ?_⟩
        obtain ⟨m', hm', hrest⟩ := hback h
        exact ⟨m', hm', hloaded.cons hrest⟩
      · have hrefused : ¬s.machine.program.TakesAll (line :: lines.filter (!Bytes.isWhite ·)) :=
          fun hall => htakes (hall [] line _ rfl)
        have hproblem := loadLines_refused hs n hwhite htakes lines
        rw [loadLines, if_neg hwhite] at hproblem
        exact ⟨iff_of_false hproblem hrefused, fun h => absurd h hproblem⟩

/-- Numbered lines are stored, and nothing else happens. -/
theorem loadLines_numbered (hs : s.machine.state = .idle) (n : Nat) {lines : List Bytes}
    (hlines : ∀ line ∈ lines.filter (!Bytes.isWhite ·), Machine.isNumbered line = true) :
    s.loadLines n lines = (none, { s with
      machine := s.machine.storeAll
        ((lines.filter (!Bytes.isWhite ·)).filterMap Machine.numberedLine?) }) := by
  induction lines generalizing s n with
  | nil => rfl
  | cons line lines ih =>
    rw [loadLines]
    by_cases hwhite : Bytes.isWhite line = true
    · rw [List.filter_cons_of_neg (by simp [hwhite])] at hlines ⊢
      rw [if_pos hwhite, ih hs (n + 1) hlines]
    · rw [List.filter_cons_of_pos (by simp [hwhite])] at hlines ⊢
      obtain ⟨hline, hrest⟩ := List.forall_mem_cons.mp hlines
      obtain ⟨e, he⟩ := Machine.exists_numberedLine? hline
      simp only [if_neg hwhite, Machine.submit_numberedLine hs he]
      rw [if_pos (show (s.machine.storeLine e.1 e.2).state = .idle from hs),
        ih (s := { s with machine := s.machine.storeLine e.1 e.2 }) hs (n + 1) hrest,
        List.filterMap_cons_some he]
      rfl

/-- A file whose lines are not too long is loaded by an idle machine exactly if all its lines that
are not white are taken: each is a numbered line, or `LIST`, `TRACE` or `NOTRACE`, or a `RUN` where
no line is stored. Then the machine is idle again and holds the edits of the numbered lines, made in
order; it has shown a listing for each `LIST`, and tracing is as it was last switched. A file of
numbered lines only is loaded, and nothing else happens. -/
theorem load_takes (s : Session) (text : Bytes) (hidle : s.machine.state = .idle)
    (hshort : (LineReader.fileLines text).2 = false) :
    ((s.load text).1 = none ↔ s.machine.program.TakesAll (textLines text)) ∧
      ((s.load text).1 = none → ∃ m, (s.load text).2 = { s with machine := m } ∧
        s.machine.Loaded (textLines text) m) ∧
      ((∀ line ∈ textLines text, Machine.isNumbered line = true) →
        s.load text = (none, { s with
          machine := s.machine.storeAll ((textLines text).filterMap Machine.numberedLine?) })) := by
  have hload : s.load text = s.loadLines 1 (LineReader.fileLines text).1 := by
    rw [load]
    dsimp only
    rw [hshort]
    rcases s.loadLines 1 (LineReader.fileLines text).1 with ⟨_ | problem, s'⟩
    · rfl
    · rfl
  rw [hload]
  obtain ⟨hiff, hloaded⟩ := loadLines_takes hidle 1 (LineReader.fileLines text).1
  exact ⟨hiff, hloaded, fun hlines => loadLines_numbered hidle 1 hlines⟩

/-- A file with a `LIST` between its lines is loaded, and shows a listing. -/
theorem load_takes_list :
    Machine.isNumbered (utf8 "LIST") = false ∧
      ∃ m, (new {} 0).load (utf8 "10 PRINT 1\nLIST\n20 PRINT 2\n") =
          (none, { new {} 0 with machine := m }) ∧
        m.output.toList = [.print (utf8 "10 PRINT 1\n")] := by
  refine ⟨by decide +kernel, ?_⟩
  obtain ⟨-, hloaded, -⟩ := load_takes (new {} 0) (utf8 "10 PRINT 1\nLIST\n20 PRINT 2\n") rfl
    (by decide +kernel)
  have hnone : ((new {} 0).load (utf8 "10 PRINT 1\nLIST\n20 PRINT 2\n")).1 = none := by
    decide +kernel
  obtain ⟨m, hm, hafter⟩ := hloaded hnone
  refine ⟨m, Prod.ext hnone hm, ?_⟩
  rw [hafter.output]
  decide +kernel

end Session

end LineBasic
