import LineBasic.Proofs.Machine.Edit
import LineBasic.Proofs.Machine.Rounds
import LineBasic.Proofs.Number.Nearest

/-!
# Lines by number

A line number is a number like any other. Its digits are read as the number nearest to them, and the
line is stored under the natural number that this one stands for. The number behind a `GOTO` is read
in the same way, so that the same digits lead to the line that they were stored under. Up to
`2 ^ 53`, and for the larger numbers that are such a number shifted to the left, this is the number
that was written. The others share their lines with a neighbour.

## Main definitions

* `Machine.GoesTo` — the line that a `GOTO` with certain digits reaches

## Main results

* `Machine.step_goto` — a `GOTO` with a number moves to the line that the number denotes
* `Machine.exists_line` — the line that the digits of a number stand for
-/

namespace LineBasic

open Lexer Token

/-! ### Texts with digits -/

namespace Number

/-- The digits of a number that is not too large are read as the number nearest to it, which denotes
a line. -/
theorem exists_read?_decimal {n : Nat} (hmax : n ≤ maxLine) :
    ∃ r, read? (Bytes.decimal n) = some (ofNat n) ∧ lineNumber (ofNat n) = .ok r ∧ Nearest n r := by
  obtain ⟨r, hline, hnearest⟩ := exists_lineNumber_ofNat hmax
  obtain ⟨hfloor, -⟩ := natural?_eq_some (lineNumber_eq_ok hline).1
  exact ⟨r, read?_decimal hmax (isFinite_of_floor? hfloor), hline, hnearest⟩

end Number

namespace Machine

variable {m : Machine} {n r : Nat} {x : Float} {tokens more : List Token}

/-! ### Storing -/

/-- Digits and a text behind a blank are an edit. -/
theorem numberedLine?_decimal (hread : Number.read? (Bytes.decimal n) = some x)
    (hline : Number.lineNumber x = .ok r) {t : Bytes}
    (ht : Token.read (Bytes.trimLineEnds t) = .ok tokens) :
    numberedLine? (Bytes.decimal n ++ 0x20 :: t) = some (r, tokens) := by
  have hscan : Scans (Bytes.decimal n ++ 0x20 :: Bytes.trimLineEnds t) (.number x :: tokens) :=
    (scans_decimal_iff hread (by rintro b ⟨⟩; rfl)).mpr
      ⟨tokens, rfl, .blank rfl (read_eq_ok_iff.mp ht)⟩
  rw [numberedLine?, Bytes.trimLineEnds_append_cons rfl, read_eq_ok_iff.mpr hscan]
  simp only [numbered?, hline]

theorem storeLine_getElem? (m : Machine) (r : Nat) (hne : tokens ≠ []) (k : Nat) :
    (m.storeLine r tokens).program.lines[k]? =
      if k = r then some tokens else m.program.lines[k]? := by
  have hempty : tokens.isEmpty = false := by simpa using hne
  rw [storeLine, Program.store, hempty]
  simp only [Bool.false_eq_true, if_false, Std.ExtTreeMap.getElem?_insert,
    Std.LawfulEqCmp.compare_eq_iff_eq, eq_comm (a := r)]

/-! ### `GOTO` -/

/-- A literal at the end of a statement is read as its number. -/
theorem numberExpression_literal (hrest : m.program.rest = .number x :: more)
    (hmore : ∀ t ∈ more.head?, t.endsStatement = true) :
    numberExpression m = .ok x m.past := by
  have hread : Expr.read m.program.rest = (Tree.number x).exprAt 0 := by
    rw [hrest]
    exact Tree.read_tokens (t := .number x) (ends_of_endsStatement hmore)
  rw [numberExpression, bind_apply, expression, get_bind_apply, hread]
  rfl

/-- A statement `GOTO` with a number moves to the line that the number denotes. -/
theorem statement_goto (hrest : m.program.rest = .keyword .GOTO :: .number x :: more)
    (hmore : ∀ t ∈ more.head?, t.endsStatement = true) (hx : Number.lineNumber x = .ok r)
    (hline : m.program.lines[r]? = some tokens) (fuel : Nat) :
    statement (fuel + 1) m = .ok () { m with
      program := { m.program with
        location := (Line.numbered r).start, current := tokens, jumped := true } } := by
  have hgo : Program.goTo r m.past.past.program = .ok () { m.past.past.program with
      location := (Line.numbered r).start, current := tokens, jumped := true } := by
    have hpast : m.past.past.program.lines[r]? = some tokens := hline
    simp only [Program.goTo, Program.moveTo?, Line.start, Program.tokensOf?, hpast, Option.map_some,
      Nat.zero_min]
  have hnumber := numberExpression_literal (rest_past hrest) hmore
  rw [statement, get_bind_apply, Program.peek?_of_rest hrest]
  change (ofEval numberExpression >>= goToNumber) m.past = _
  rw [bind_apply, ofEval, hnumber]
  change (ofEval (ofExcept (Number.lineNumber x)) >>= fun n => ofEval (onProgram (Program.goTo n)))
    m.past.past = _
  rw [hx]
  change ofEval (onProgram (Program.goTo r)) m.past.past = _
  rw [ofEval, onProgram, hgo]
  rfl

/-- A `GOTO` with a number moves to the line that the number denotes, if it has tokens. -/
theorem step_goto (hrunning : m.state = .running)
    (hrest : m.program.rest.dropWhile (· == .mark .colon) = .keyword .GOTO :: .number x :: more)
    (hmore : ∀ t ∈ more.head?, t.endsStatement = true) (hx : Number.lineNumber x = .ok r)
    (hline : m.program.lines[r]? = some tokens) (hne : tokens ≠ []) :
    ∃ m', m.step = (none, m') ∧ m'.state = .running ∧
      m'.program.location = (Line.numbered r).start ∧ m'.program.rest = tokens := by
  have hstands : m.Stands m.program.location.line m.program.current m.program.loops
      (.keyword .GOTO :: .number x :: more) := ⟨hrunning, rfl, rfl, rfl, hrest⟩
  have hstored : m.announce.atStatement.program.lines[r]? = some tokens := by
    rw [← hline]
    exact congrArg (·.lines[r]?) (announce_program m)
  have hstep := hstands.step_of_end
    (statement_goto hstands.rest_statement hmore hx hstored _) (endStatement_of_jumped rfl)
  obtain ⟨t, ts, rfl⟩ := List.exists_cons_of_ne_nil hne
  rw [endStep, toStatement?_eq (t := t) rfl] at hstep
  exact ⟨_, hstep, (announce_state m).trans hrunning, rfl, rfl⟩

/-! ### Digits -/

theorem trimLineEnds_decimal (n : Nat) :
    Bytes.trimLineEnds (Bytes.decimal n) = Bytes.decimal n := by
  refine Bytes.trimLineEnds_of_getLast? fun b hb => ?_
  have hdigit := Bytes.isDigit_of_mem_decimal (List.mem_of_getLast? hb)
  grind [Byte.isDigit, Byte.isLineEnd]

theorem command_goto (s : Bytes) : Command.read? (utf8 "GOTO" ++ s) = none := by
  refine Option.eq_none_iff_forall_ne_some.mpr fun c h => ?_
  have hhead : c.spelling.head? = some 0x47 := by
    rw [← squeeze_of_read? h]
    rfl
  cases c <;> exact absurd hhead (by decide)

theorem scans_decimal (hread : Number.read? (Bytes.decimal n) = some x) :
    Scans (Bytes.decimal n) [.number x] := by
  have hend : ∀ b ∈ ([] : Bytes).head?, isNumberByte b = false := nofun
  have hscan := (scans_decimal_iff hread hend).mpr ⟨[], rfl, .nil⟩
  rwa [List.append_nil] at hscan

theorem scans_goto (hread : Number.read? (Bytes.decimal n) = some x) :
    Scans (utf8 "GOTO" ++ 0x20 :: Bytes.decimal n) [.keyword .GOTO, .number x] := by
  obtain ⟨d, r, k, htext, hd, hreads, hrest⟩ :=
    readsBack_keyword .GOTO (0x20 :: Bytes.decimal n)
  have hscan : Scans (d :: r) [.keyword .GOTO, .number x] := (scans_cons_iff hd hreads).mpr
    ⟨[.number x], rfl, (hrest _).mpr (.blank rfl (scans_decimal hread))⟩
  rw [← htext] at hscan
  exact hscan

/-- A `GOTO` with digits, typed in as a line of its own, is executed. -/
theorem submit_goto (hidle : m.state = .idle) (hread : Number.read? (Bytes.decimal n) = some x) :
    m.submit (utf8 "GOTO" ++ 0x20 :: Bytes.decimal n) =
      (none, m.startImmediate [.keyword .GOTO, .number x]) := by
  rw [submit, if_neg (by simp [hidle]), Bytes.trimLineEnds_append_cons rfl, trimLineEnds_decimal]
  simp only [command_goto, read_eq_ok_iff.mpr (scans_goto hread)]
  rfl

/-- The digits of `n` behind a `GOTO` lead to the line `r` as long as it is stored: in a line that
is typed in, and in a program that runs. -/
structure GoesTo (n r : Nat) : Prop where
  typed (m : Machine) (tokens : List Token) (hidle : m.state = .idle)
    (hline : m.program.lines[r]? = some tokens) (hne : tokens ≠ []) :
    ∃ m₁ m₂, m.submit (utf8 "GOTO" ++ 0x20 :: Bytes.decimal n) = (none, m₁) ∧
      m₁.step = (none, m₂) ∧ m₂.state = .running ∧
      m₂.program.location = (Line.numbered r).start ∧ m₂.program.rest = tokens
  literal : Token.read (Bytes.decimal n) = .ok [.number (Number.ofNat n)]
  executed (m : Machine) (tokens more : List Token) (hrunning : m.state = .running)
    (hrest : m.program.rest.dropWhile (· == .mark .colon) =
      .keyword .GOTO :: .number (Number.ofNat n) :: more)
    (hmore : ∀ t ∈ more.head?, t.endsStatement = true)
    (hline : m.program.lines[r]? = some tokens) (hne : tokens ≠ []) :
    ∃ m', m.step = (none, m') ∧ m'.state = .running ∧
      m'.program.location = (Line.numbered r).start ∧ m'.program.rest = tokens

theorem goesTo (hread : Number.read? (Bytes.decimal n) = some (Number.ofNat n))
    (hline : Number.lineNumber (Number.ofNat n) = .ok r) : GoesTo n r where
  typed m tokens hidle hstored hne := by
    -- the machine that runs the line is given a name, since it need not be unfolded
    obtain ⟨m₁, hm₁⟩ :
      ∃ m₁, m₁ = m.startImmediate [.keyword .GOTO, .number (Number.ofNat n)] := ⟨_, rfl⟩
    have hprogram : m₁.program =
        m.program.setImmediate [.keyword .GOTO, .number (Number.ofNat n)] := by
      rw [hm₁, startImmediate, enter_program]
    have hrest : m₁.program.rest.dropWhile (· == .mark .colon) =
        [.keyword .GOTO, .number (Number.ofNat n)] := by
      rw [hprogram]
      rfl
    have hlines : m₁.program.lines[r]? = some tokens := by
      rw [hprogram]
      exact hstored
    have hrunning : m₁.state = .running := by rw [hm₁, startImmediate, enter_state]
    have hends : ∀ t ∈ ([] : List Token).head?, t.endsStatement = true := by simp
    obtain ⟨m₂, hstep⟩ := step_goto hrunning hrest hends hline hlines hne
    exact ⟨m₁, m₂, hm₁ ▸ submit_goto hidle hread, hstep⟩
  literal := read_eq_ok_iff.mpr (scans_decimal hread)
  executed m tokens more hrunning hrest hmore hstored hne :=
    step_goto hrunning hrest hmore hline hstored hne

/-- The digits of a natural number of at most `2 ^ 63` stand for one line. Its number is the nearest
that some number stands for, so that it is the written one exactly if this has at most 53 bits, up
to zeros behind them. A text behind the digits is stored in this line and in no other, whatever the
machine holds, and a `GOTO` with the digits reaches it. -/
theorem exists_line {n : Nat} (hn : n ≤ 2 ^ 63) :
    ∃ r, Number.Nearest n r ∧ (r = n ↔ ∃ a k, a ≤ 2 ^ 53 ∧ n = a * 2 ^ k) ∧
      (∀ (m : Machine) (t : Bytes) (tokens : List Token), m.state = .idle →
        Token.read (Bytes.trimLineEnds t) = .ok tokens → tokens ≠ [] →
        ∃ m', m.submit (Bytes.decimal n ++ 0x20 :: t) = (none, m') ∧ m'.state = .idle ∧
          ∀ k : Nat, m'.program.lines[k]? = if k = r then some tokens else m.program.lines[k]?) ∧
      GoesTo n r := by
  have hmax : n ≤ Number.maxLine := by
    rw [Number.maxLine]
    omega
  obtain ⟨r, hread, hline, hnearest⟩ := Number.exists_read?_decimal hmax
  refine ⟨r, hnearest, ?_, fun m t tokens hidle ht hne => ?_, goesTo hread hline⟩
  · rw [hnearest.eq_iff, Number.exact_iff (by omega)]
  · have hsubmit := submit_numberedLine hidle (numberedLine?_decimal hread hline ht)
    exact ⟨_, hsubmit, hidle, storeLine_getElem? m r hne⟩

/-- A number with few bits is the number of its line. -/
theorem exists_line_hundred :
    ∃ m, (new {}).submit (utf8 "100 PRINT 1\r\n") = (none, m) ∧
      m.program.lines[100]? = some [.keyword .PRINT, .number 1] ∧ GoesTo 100 100 := by
  obtain ⟨r, -, hr, hsubmit, hgoes⟩ := exists_line (show 100 ≤ 2 ^ 63 by decide)
  obtain rfl : r = 100 := hr.mpr ⟨100, 0, by decide, by decide⟩
  have hread : (Token.read (Bytes.trimLineEnds (utf8 "PRINT 1\r\n"))).toOption =
      some [.keyword .PRINT, .number 1] := by decide +kernel
  cases htokens : Token.read (Bytes.trimLineEnds (utf8 "PRINT 1\r\n")) with
  | error cause =>
    rw [htokens] at hread
    cases hread
  | ok tokens =>
    rw [htokens] at hread
    obtain rfl : tokens = [.keyword .PRINT, .number 1] := Option.some.inj hread
    have htext : Bytes.decimal 100 ++ 0x20 :: utf8 "PRINT 1\r\n" = utf8 "100 PRINT 1\r\n" := by
      decide +kernel
    obtain ⟨m, hm, -, hlines⟩ := hsubmit (new {}) _ _ rfl htokens (by simp)
    exact ⟨m, htext ▸ hm, by rw [hlines, if_pos rfl], hgoes⟩

/-- A line whose number has 54 bits is stored in place of its neighbour. -/
theorem line_of_neighbour :
    ∃ m m' : Machine, m.state = .idle ∧
      (new {}).submit (utf8 "9007199254740992 PRINT 1") = (none, m) ∧
      m.submit (utf8 "9007199254740993 PRINT 2") = (none, m') ∧
      m.program.lines[9007199254740992]? = some [.keyword .PRINT, .number 1] ∧
      m'.program.lines[9007199254740993]? = none ∧
      m'.program.lines[9007199254740992]? = some [.keyword .PRINT, .number 2] := by
  obtain ⟨r, hr⟩ : ∃ r, r = (new {}).submit (utf8 "9007199254740992 PRINT 1") := ⟨_, rfl⟩
  obtain ⟨r', hr'⟩ : ∃ r', r' = r.2.submit (utf8 "9007199254740993 PRINT 2") := ⟨_, rfl⟩
  have hruns : r.2.state = .idle ∧ r.1 = none ∧ r'.1 = none ∧
      r.2.program.lines[9007199254740992]? = some [.keyword .PRINT, .number 1] ∧
      r'.2.program.lines[9007199254740993]? = none ∧
      r'.2.program.lines[9007199254740992]? = some [.keyword .PRINT, .number 2] := by
    rw [hr', hr]
    decide +kernel
  obtain ⟨hidle, hfirst, hsecond, hlines⟩ := hruns
  exact ⟨r.2, r'.2, hidle, hr ▸ Prod.ext hfirst rfl, hr' ▸ Prod.ext hsecond rfl, hlines⟩

end Machine

end LineBasic
