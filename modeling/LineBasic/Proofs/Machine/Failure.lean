import LineBasic.Proofs.Machine.Breakpoint
import LineBasic.Proofs.Machine.PrintLine
import LineBasic.Proofs.Machine.Typing
import LineBasic.Proofs.Program.Data
import LineBasic.Proofs.Program.OnStoredLines

/-!
# After a fault

A fault ends the run, however deep it was inside a list, a branch or the body of a function. It is
reported for the line on which the statement started, with one exception: a field of data that is a
string where a number is read is reported for the line of the field, since that is the line to be
corrected.

Whatever the statement was about, the machine is left in the same condition. It is idle, with no
calls and loops to go back to, no place to continue at and no reply to take, and it has the lines
that it had. So a `CONT`, `RETURN` or `NEXT` that follows finds nothing to go back to.

## Main definitions

* `Machine.Misread` — how a run stops at a field that is a string where a number is read
* `Machine.Misreads` — execution that stops at a field only if it has just read it
* `Machine.Cleared` — the condition of a machine after a fault

## Main results

* `Machine.misreads_execute` — this is so of all that a step executes
* `Machine.step_fault` — what a step did that ends with a fault
* `Machine.Cleared.cont`, `Machine.Cleared.returns`, `Machine.Cleared.next` — there is nothing to go
  back to
* `Machine.fault_clears` — every fault names its line and leaves a cleared machine
-/

namespace LineBasic.Machine

variable {α : Type} {o : Options} {m m' n : Machine} {e : Stop}

/-! ### The line of a field -/

/-- If a run stops since a field of line `k` cannot be stored, this is the last field that has been
read since `n`, and it is a string. -/
def Misread (n : Machine) (e : Stop) (m : Machine) : Prop :=
  ∀ k, e = .fault (.dataTypeMismatch k) → ∃ j s, n.program.dataIndex ≤ j ∧
    m.program.dataIndex = j + 1 ∧ n.program.data[j]? = some (.str s, k)

theorem Misread.of_unnamed (h : e.Unnamed) (n m : Machine) : n.Misread e m := by
  rintro k rfl
  cases h

/-- What has been read since a later machine has been read since an earlier one. -/
theorem Misread.since (h : m.Misread e m') (hlines : m.program.lines = n.program.lines)
    (hindex : n.program.dataIndex ≤ m.program.dataIndex) : n.Misread e m' := by
  intro k hk
  obtain ⟨j, s, hj, hend, hfield⟩ := h k hk
  refine ⟨j, s, Nat.le_trans hindex hj, hend, ?_⟩
  rw [← hfield, Program.data, Program.data, hlines]

/-- A machine in the middle of a `READ`, as seen from an earlier place of it. -/
structure Reading (n m : Machine) : Prop where
  within : n.Within m
  typed : m.Typed
  index : n.program.dataIndex ≤ m.program.dataIndex

theorem Reading.misread (h : n.Reading m) (hm : m.Misread e m') : n.Misread e m' :=
  hm.since (by rw [h.within.program]) h.index

theorem Reading.trans (h : n.Reading m) (h' : m.Reading m') : n.Reading m' :=
  ⟨h.within.trans h'.within, h'.typed, Nat.le_trans h.index h'.index⟩

theorem Reading.of_trod (h : n.Trod m) (ht : m.Typed) : n.Reading m where
  within := .of_trod h
  typed := ht
  index := by
    rw [h.program]
    exact Nat.le_refl _

/-- Parts of a `READ` that only move along the line and fail for reasons that name no line. -/
theorem concludes_reading {x : Eval α} (htreads : Treads (fun _ => True) x)
    (hkeeps : Keeps Typed Cause.Unnamed x) (hm : m.Active o) (ht : m.Typed) :
    Concludes (fun _ m' => m.Reading m') m.Misread (ofEval x m) := by
  refine concludes_ofEval (((htreads o m hm).and (hkeeps m ht)).mono ?_ ?_)
  · exact fun a m' h => .of_trod h.1 h.2
  · exact fun c m' h => .of_unnamed (e := .fault c) h.2.2 m m'

/-- A machine that has moved on in the data. -/
def datumRead (m : Machine) : Machine :=
  { m with program := { m.program with dataIndex := m.program.dataIndex + 1 } }

/-- The next field of data is read, unless the data are used up. -/
theorem concludes_nextDatum (m : Machine) :
    Concludes (fun d m' => m.program.data[m.program.dataIndex]? = some d ∧ m' = m.datumRead)
      (fun e _ => e = .fault .outOfData) (ofEval (onProgram Program.nextDatum) m) := by
  refine concludes_ofEval (concludes_onProgram ?_)
  rw [Program.nextDatum]
  split
  · next d hd => exact ⟨hd, rfl⟩
  · rfl

/-- Storing the value of a field leaves the place in the data behind the field. -/
theorem concludes_assign_datumRead {m₁ : Machine} (h : m.Reading m₁) (t : Target) (v : Value) :
    Concludes (fun _ m' => m.program.dataIndex ≤ m'.program.dataIndex) m.Misread
      (ofEval (assign t v) m₁.datumRead) := by
  have hprogram := keeps_assign (P := fun m => m.program = m₁.datumRead.program)
    (fun _ _ _ hm => hm) t v m₁.datumRead rfl
  have htyped := keepsTyped_assign t v m₁.datumRead (h.typed.congr rfl (List.Subset.refl _) rfl)
  refine concludes_ofEval ((hprogram.and htyped).mono ?_ ?_)
  · intro _ m' hend
    rw [hend.1]
    exact Nat.le_succ_of_le h.index
  · exact fun c m' hend => .of_unnamed (e := .fault c) hend.2.2 m m'

/-- One target of a `READ`. -/
theorem concludes_readItem_misread (hm : m.Active o) (ht : m.Typed) :
    Concludes (fun _ m' => m.Reading m') m.Misread (readItem m) := by
  have hindex : Concludes (fun _ m' => m.program.dataIndex ≤ m'.program.dataIndex) m.Misread
      (readItem m) := by
    refine (concludes_reading treads_target keepsTyped_target hm ht).bind fun t m₁ h₁ => ?_
    refine Concludes.bind ((concludes_nextDatum m₁).mono (fun _ _ h => h) ?_) ?_
    · rintro _ m' rfl
      exact Misread.of_unnamed (e := .fault .outOfData) rfl m m'
    · rintro ⟨field, k⟩ _ ⟨hfield, rfl⟩
      have hstore : ∀ v, Concludes (fun _ m' => m.program.dataIndex ≤ m'.program.dataIndex)
          m.Misread ((do
            assign t v
            return true : Exec Bool) m₁.datumRead) := fun v =>
        (concludes_assign_datumRead h₁ t v).bind fun _ _ h => h
      dsimp only
      cases ht : t.name.isString with
      | true => exact hstore _
      | false =>
        cases field with
        | num x => exact hstore _
        | str s =>
          -- the one stop that names a line: the field has just been read
          refine h₁.misread fun k' hk' => ?_
          cases hk'
          exact ⟨_, s, Nat.le_refl _, rfl, hfield⟩
  exact (((stays_readItem o m hm).and (keepsTyped_readItem m ht)).and hindex).mono
    (fun _ _ h => ⟨h.1.1, h.1.2, h.2⟩) fun _ _ h => h.2

/-- Execution that stops at a field of data only if it has just read that field. -/
def Misreads (x : Exec α) : Prop :=
  ∀ (o : Options) (m : Machine), m.Active o → m.Typed →
    Concludes (fun _ _ => True) m.Misread (x m)

/-- What stops for other reasons does not stop at a field of data. -/
theorem Misreads.of_keepsTyped {x : Exec α} (h : Keeps Typed Stop.Unnamed x) : Misreads x :=
  fun _ m _ ht => (h m ht).mono (fun _ _ _ => trivial) fun _ _ he => .of_unnamed he.2 _ _

/-- The targets of a `READ`, by induction on those that may follow. -/
theorem misreads_read : Misreads (items readItem) := by
  intro o m hm ht
  rw [items, get_bind_apply]
  generalize m.program.rest.length = more
  induction more generalizing m with
  | zero => exact (concludes_readItem_misread hm ht).bind fun _ _ _ => trivial
  | succ more ih =>
    refine (concludes_readItem_misread hm ht).bind fun again m₁ h₁ => ?_
    cases again with
    | false => exact trivial
    | true =>
      have hm₁ := h₁.within.active hm
      refine Concludes.bind ((concludes_reading (treads_accept rfl)
        (keepsTyped_onProgram (Program.keepsTyped_accept _)) hm₁ h₁.typed).mono
          (fun _ _ h => h) fun _ _ h => h₁.misread h) fun found m₂ h₂ => ?_
      cases found with
      | false => exact trivial
      | true =>
        exact (ih m₂ (h₂.within.active hm₁) h₂.typed).mono (fun _ _ h => h)
          fun _ _ h => (h₁.trans h₂).misread h

/-- A branch is a jump, or it stops where its statement does. -/
theorem Misreads.branch {statement : Exec Unit} (h : Misreads statement) :
    Misreads (branch statement) := by
  have halone : Misreads (aloneOnLine statement) := fun o m hm ht =>
    concludes_aloneOnLine (h o m hm ht) (fun _ _ => trivial)
      fun m' _ => .of_unnamed (e := .signal .awaitInput) trivial m _
  have hgoto : ∀ x : Float, Misreads (do
      modifyProgram (·.skip 1)
      goToNumber x) := fun x =>
    .of_keepsTyped (.bind (keepsTyped_modifyProgram fun _ => rfl) fun _ => keepsTyped_goToNumber x)
  intro o m hm ht
  rw [Machine.branch, get_bind_apply]
  cases hpeek : m.program.peek? with
  | none => exact halone o m hm ht
  | some t =>
    cases t with
    | number x => exact hgoto x o m hm ht
    | _ => exact halone o m hm ht

/-- An `IF` stops where its branch does. -/
theorem Misreads.ifStatement {statement : Exec Unit} (h : Misreads statement) :
    Misreads (ifStatement statement) := by
  intro o m hm ht
  rw [ifStatement_eq]
  refine Concludes.bind (((concludes_chooseBranch hm).and (keepsTyped_chooseBranch m ht)).mono
    (fun _ _ h => h) fun _ _ h => .of_unnamed h.2.2 _ _) ?_
  rintro found m₁ ⟨⟨hwalked, -⟩, htyped⟩
  cases found with
  | false => exact trivial
  | true =>
    refine (h.branch o m₁ (hm.walked hwalked) htyped).mono (fun _ _ h => h)
      fun _ _ h => h.since ?_ ?_
    · rw [hwalked.program]
      rfl
    · rw [hwalked.program]
      exact Nat.le_refl _

/-- Every statement, by induction on the tokens that are left. -/
theorem misreads_statement (tokens : Nat) : Misreads (statement tokens) := by
  induction tokens with
  | zero => exact .of_keepsTyped (keepsTyped_fail rfl)
  | succ tokens ih =>
    intro o m hm ht
    have hpast : ∀ {x : Exec Unit} {t : Token}, Misreads x → m.program.peek? = some t →
        Concludes (fun _ _ => True) m.Misread (x m.past) := fun {x t} hx hpeek =>
      (hx o m.past (hm.walked (.skip hpeek)) (ht.congr rfl (List.Subset.refl _) rfl)).mono
        (fun _ _ h => h) fun _ _ h => h.since rfl (Nat.le_refl _)
    rcases statement_cases tokens m with ⟨hpeek, heq⟩ | ⟨hpeek, heq⟩ | ⟨x, hx, heq⟩
    · rw [heq]
      exact hpast misreads_read hpeek
    · rw [heq]
      exact hpast ih.ifStatement hpeek
    · rw [heq]
      exact Misreads.of_keepsTyped hx o m hm ht

theorem misreads_execute : Misreads execute := by
  intro o m hm ht
  rw [execute_apply]
  split
  · trivial
  · have hmisread := misreads_statement m.atStatement.program.rest.length o m.atStatement
      (active_atStatement hm) ht.atStatement
    have htyped := keepsTyped_statement m.atStatement.program.rest.length m.atStatement
      ht.atStatement
    refine Concludes.bind ((hmisread.and htyped).mono (fun _ _ h => h.2)
      fun _ _ h => Misread.since h.1 rfl (Nat.le_refl _)) fun _ m₁ hm₁ => ?_
    exact (keepsTyped_endStatement m₁ hm₁).mono (fun _ _ _ => trivial)
      fun _ _ he => .of_unnamed he.2 _ _

/-! ### The step that fails -/

/-- A statement that fails ends the run. -/
theorem step_of_fault {m₁ m₂ : Machine} {cause : Cause} (hrunning : m.state = .running)
    (hstart : m.toStatement? = some m₁) (hend : execute m₁.announce = .error (.fault cause) m₂) :
    m.step = (some (m₂.abort cause m₁.program.location.line).1,
      (m₂.abort cause m₁.program.location.line).2) := by
  rw [step, if_neg (by simpa using hrunning)]
  simp only [hstart, hend]

/-- A step ends with a fault only if a statement fails. -/
theorem step_fault (hrunning : m.state = .running) {fault : Fault}
    (hfault : m.step.1 = some fault) :
    ∃ m₁ m₂, m.toStatement? = some m₁ ∧ execute m₁.announce = .error (.fault fault.cause) m₂ ∧
      fault = fault.cause.at m₁.program.location.line ∧
      m.step.2 = (m₂.abort fault.cause m₁.program.location.line).2 := by
  have hstepped := stepped hrunning
  obtain ⟨r, hresult⟩ : ∃ r, m.step = r := ⟨_, rfl⟩
  rw [hresult] at hstepped
  cases hstepped with
  | fault line hstart hend =>
    have hstep := step_of_fault hrunning hstart hend
    rw [hstep] at hfault
    cases hfault
    exact ⟨_, _, hstart, hend, rfl, congrArg Prod.snd hstep⟩
  | _ =>
    rw [hresult] at hfault
    cases hfault

/-- The condition of a machine `m'` after a fault of `m`. -/
structure Cleared (m m' : Machine) : Prop where
  idle : m'.state = .idle
  calls : m'.program.calls = []
  loops : m'.program.loops = []
  breakpoint : m'.program.breakpoint = none
  reply : m'.reply = none
  branchInput : m'.branchInput = none
  lines : m'.program.lines = m.program.lines

/-- Giving up a run clears the machine. -/
theorem cleared_abort (hlines : n.program.lines = m.program.lines) (cause : Cause) (line : Line) :
    m.Cleared (n.abort cause line).2 where
  idle := rfl
  calls := by
    rw [abort_program]
    rfl
  loops := by
    rw [abort_program]
    rfl
  breakpoint := by
    rw [abort_program]
    rfl
  reply := abort_reply n cause line
  branchInput := abort_branchInput n cause line
  lines := by
    rw [abort_program]
    exact hlines

/-! ### Nothing to go back to -/

/-- A line that starts with a keyword becomes the immediate line. -/
theorem submit_keyword (hstopped : m.Stopped) {line : Bytes} {k : Keyword} {rest : List Token}
    (h : Spells line (.keyword k :: rest)) :
    m.submit line = (none, m.startImmediate (.keyword k :: rest)) := by
  obtain ⟨hcommand, hread⟩ := h
  rw [submit, if_neg hstopped]
  dsimp only
  rw [hcommand, hread]
  rfl

/-- The machine at the statement that an immediate line starts with. -/
def atImmediate (m : Machine) (tokens : List Token) : Machine :=
  (m.startImmediate tokens).announce.atStatement

theorem atImmediate_program (m : Machine) (k : Keyword) (rest : List Token) :
    (m.atImmediate (.keyword k :: rest)).program =
      (m.program.setImmediate (.keyword k :: rest)).clearJumped := by
  have hprogram : (m.startImmediate (.keyword k :: rest)).announce.program =
      m.program.setImmediate (.keyword k :: rest) := by
    rw [announce_program, startImmediate_program]
  have hpeek : (m.startImmediate (.keyword k :: rest)).announce.program.peek? =
      some (.keyword k) := by
    rw [hprogram]
    rfl
  rw [atImmediate, atStatement, takeWhile_rest_eq_nil hpeek (by simp), hprogram]
  rfl

theorem atImmediate_peek? (m : Machine) (k : Keyword) (rest : List Token) :
    (m.atImmediate (.keyword k :: rest)).program.peek? = some (.keyword k) := by
  rw [atImmediate_program]
  rfl

/-- An immediate line whose first statement fails is reported without a number. -/
theorem step_immediate_fault {k : Keyword} {rest : List Token} {cause : Cause}
    (hcause : cause.Unnamed)
    (hend : statement (rest.length + 1) (m.atImmediate (.keyword k :: rest)) =
      .error (.fault cause) n) :
    (m.startImmediate (.keyword k :: rest)).step.1 = some ⟨cause, .immediate⟩ := by
  have hprogram := atImmediate_program m k rest
  have hpeek : (m.startImmediate (.keyword k :: rest)).program.peek? = some (.keyword k) := by
    rw [startImmediate_program]
    rfl
  have hexecute : execute (m.startImmediate (.keyword k :: rest)).announce =
      .error (.fault cause) n := by
    have hlength : (m.atImmediate (.keyword k :: rest)).program.rest.length = rest.length + 1 := by
      rw [hprogram]
      rfl
    have hopen : (m.atImmediate (.keyword k :: rest)).program.atEnd = false := by
      rw [hprogram]
      rfl
    rw [execute_apply, if_neg (by rw [← atImmediate, hopen]; simp), bind_apply, ← atImmediate,
      hlength, hend]
  rw [step_of_fault (startImmediate_state _ _) (toStatement?_eq hpeek) hexecute,
    startImmediate_program]
  change some (cause.at .immediate) = _
  rw [Cause.at, hcause]

/-- A list stops where its first item does. -/
theorem items_error {item : Exec Bool} (h : item m = .error e m') : items item m = .error e m' := by
  rw [items, get_bind_apply]
  cases m.program.rest.length with
  | zero =>
    change (item >>= fun _ => pure ()) m = _
    rw [bind_apply, h]
  | succ more => rw [eachItem, bind_apply, h]

/-- Without loops, no variable has one. -/
theorem nextLoop_none (ht : m.Typed) (hloops : m.program.loops = []) {name : Name}
    (hname : name.isString = false) :
    nextLoop name m = .error (.fault .nextWithoutFor) m := by
  have hfits := Value.fits_iff.mp (ht.lookup name)
  rw [hname] at hfits
  cases hvalue : m.lookup name with
  | str s =>
    rw [hvalue] at hfits
    cases hfits
  | num x =>
    have hnone : Program.endLoop name x m.program = .error .nextWithoutFor m.program := by
      refine Program.endLoop_none x ?_
      rw [hloops]
      cases name with
      | nil => rfl
      | cons b name => rfl
    rw [nextLoop, get_bind_apply, hvalue]
    change (ofEval (onProgram (Program.endLoop name x)) >>= _) m = _
    rw [bind_apply, ofEval, onProgram, hnone]

/-- Without loops, a `NEXT` fails: at once if it names no variable, and else at the first one. -/
theorem nextStatement_none (ht : m.Typed) (hloops : m.program.loops = [])
    (hends : m.program.atStatementEnd = true ∨
      ∃ name, m.program.peek? = some (.symbol name) ∧ name.isString = false) :
    ∃ m', nextStatement m = .error (.fault .nextWithoutFor) m' := by
  rw [nextStatement, get_bind_apply]
  rcases hends with hend | ⟨name, hpeek, hname⟩
  · have hnone : m.program.loopName? = none := by
      rw [Program.loopName?, hloops]
      rfl
    simp only [hend, if_true, hnone]
    exact ⟨m, rfl⟩
  · have hmore : m.program.atStatementEnd = false := by
      rw [Program.atStatementEnd, hpeek]
      rfl
    have hitem : nextItem m = .error (.fault .nextWithoutFor) m.past := by
      have htaken : nextName m = .ok name m.past := by
        rw [nextName, ofEval, onProgram, Program.nextName, hpeek]
        rfl
      rw [nextItem, bind_apply, htaken]
      dsimp only
      rw [bind_apply, nextLoop_none (m := m.past) (ht.congr rfl (List.Subset.refl _) rfl) hloops
        hname]
    simp only [hmore, Bool.false_eq_true, if_false]
    exact ⟨m.past, items_error hitem⟩

namespace Cleared

theorem stopped (h : m.Cleared m') : m'.Stopped := by
  rw [Stopped, h.idle]
  simp

/-- There is no place to continue at. -/
theorem cont (h : m.Cleared m') {line : Bytes}
    (hline : Command.read? (Bytes.trimLineEnds line) = some .cont) :
    (m'.submit line).1 = some ⟨.cannotContinue, .immediate⟩ := by
  rw [submit_command h.stopped hline]
  exact (runCommand_cont_of_none h.breakpoint).1

/-- There is no call to return from. -/
theorem returns (h : m.Cleared m') {line : Bytes} {rest : List Token}
    (hline : Spells line (.keyword .RETURN :: rest)) :
    (m'.submit line).1 = none ∧
      (m'.submit line).2.step.1 = some ⟨.returnWithoutGosub, .immediate⟩ := by
  rw [submit_keyword h.stopped hline]
  refine ⟨rfl, step_immediate_fault rfl
    (n := (m'.atImmediate (.keyword .RETURN :: rest)).past) ?_⟩
  have hcalls : (m'.atImmediate (.keyword .RETURN :: rest)).past.program.calls = [] := by
    change (m'.atImmediate (.keyword .RETURN :: rest)).program.calls = []
    rw [atImmediate_program]
    change Program.numberedPart Frame.ret m'.program.calls = []
    rw [h.calls]
    rfl
  rw [statement, get_bind_apply, atImmediate_peek?]
  change ofEval (onProgram Program.returnFromGosub)
    (m'.atImmediate (.keyword .RETURN :: rest)).past = _
  rw [ofEval, onProgram, Program.returnFromGosub, hcalls]

/-- There is no loop to go round, whether or not one is named. -/
theorem next (h : m.Cleared m') (ht : m'.Typed) {line : Bytes} {rest : List Token}
    (hline : Spells line (.keyword .NEXT :: rest))
    (hrest : (∀ t ∈ rest.head?, t.endsStatement = true) ∨
      ∃ name, rest.head? = some (.symbol name) ∧ name.isString = false) :
    (m'.submit line).1 = none ∧
      (m'.submit line).2.step.1 = some ⟨.nextWithoutFor, .immediate⟩ := by
  rw [submit_keyword h.stopped hline]
  have hloops : (m'.atImmediate (.keyword .NEXT :: rest)).past.program.loops = [] := by
    change (m'.atImmediate (.keyword .NEXT :: rest)).program.loops = []
    rw [atImmediate_program]
    change Program.numberedPart Loop.resume m'.program.loops = []
    rw [h.loops]
    rfl
  have hbehind : (m'.atImmediate (.keyword .NEXT :: rest)).past.program.peek? = rest.head? := by
    rw [past, atImmediate_program]
    exact List.head?_eq_getElem?.symm
  -- the variable of a `NEXT` is looked up before its loop, so its type matters
  have htyped : (m'.atImmediate (.keyword .NEXT :: rest)).past.Typed :=
    (ht.startImmediate _).announce.atStatement.congr rfl (List.Subset.refl _) rfl
  obtain ⟨m₁, hend⟩ := nextStatement_none htyped hloops <| hrest.imp
    (fun hends => by
      rw [Program.atStatementEnd, hbehind]
      cases hhead : rest.head? with
      | none => rfl
      | some t => exact hends t hhead)
    (Exists.imp fun name h => ⟨hbehind.trans h.1, h.2⟩)
  refine ⟨rfl, step_immediate_fault rfl (n := m₁) ?_⟩
  rw [statement, get_bind_apply, atImmediate_peek?]
  exact hend

end Cleared

/-! ### Every fault -/

/-- The way to a statement does not read any data. -/
theorem data_toStatement? (h : m.toStatement? = some m') :
    m'.program.lines = m.program.lines ∧ m'.program.dataIndex = m.program.dataIndex := by
  rcases toStatement?_eq_some h with ⟨rfl, -⟩ | ⟨line, tokens, rfl⟩
  · exact ⟨rfl, rfl⟩
  · exact ⟨rfl, rfl⟩

/-- If a step of a running machine fails, then the statement that it executed has failed. The fault
is reported for the line on which this statement starts, wherever it happened; but a field of data
that is a string where a number is read is reported for the stored line of the field, which is the
last one that has been read. The machine is idle afterwards, with the same lines and nothing to go
back to: it refuses to continue, to return, and to end a round of a loop. -/
theorem fault_clears (h : Reachable o m) (hrunning : m.state = .running) {fault : Fault}
    (hfault : m.step.1 = some fault) :
    (∃ m₁ m₂, m.toStatement? = some m₁ ∧ execute m₁.announce = .error (.fault fault.cause) m₂ ∧
        ((∀ k, fault.cause ≠ .dataTypeMismatch k) → fault.line = m₁.program.location.line)) ∧
      (∀ k, fault.cause = .dataTypeMismatch k → fault.line = .numbered k ∧
        ∃ j s tokens values, m.program.dataIndex ≤ j ∧ m.step.2.program.dataIndex = j + 1 ∧
          m.program.data[j]? = some (.str s, k) ∧ m.program.lines[k]? = some tokens ∧
          .data values ∈ tokens ∧ .str s ∈ values) ∧
      m.Cleared m.step.2 ∧
      (∀ line, Command.read? (Bytes.trimLineEnds line) = some .cont →
        (m.step.2.submit line).1 = some ⟨.cannotContinue, .immediate⟩) ∧
      (∀ line rest, Spells line (.keyword .RETURN :: rest) →
        (m.step.2.submit line).1 = none ∧
          (m.step.2.submit line).2.step.1 = some ⟨.returnWithoutGosub, .immediate⟩) ∧
      ∀ line rest, Spells line (.keyword .NEXT :: rest) →
        ((∀ t ∈ rest.head?, t.endsStatement = true) ∨
          ∃ name, rest.head? = some (.symbol name) ∧ name.isString = false) →
        (m.step.2.submit line).1 = none ∧
          (m.step.2.submit line).2.step.1 = some ⟨.nextWithoutFor, .immediate⟩ := by
  obtain ⟨m₁, m₂, hstart, hend, hat, hafter⟩ := step_fault hrunning hfault
  have hlines := h.sound.step_remembered.lines
  have hcleared : m.Cleared m.step.2 := by
    rw [hafter] at hlines ⊢
    rw [abort_program] at hlines
    exact cleared_abort hlines _ _
  refine ⟨⟨m₁, m₂, hstart, hend, fun hother => ?_⟩, fun k hk => ?_, hcleared,
    fun line hline => hcleared.cont hline, fun line rest hline => hcleared.returns hline,
    fun line rest hline hrest => hcleared.next h.typed.step hline hrest⟩
  · rw [hat, Cause.at]
    cases hcause : fault.cause with
    | dataTypeMismatch k => exact absurd hcause (hother k)
    | _ => rfl
  · -- the data are those of `m`, since the way to the statement does not read any
    have hmisread := misreads_execute o m₁.announce
      ((h.sound.active hrunning).toStatement? hstart).announce
      (h.typed.toStatement? hstart).announce
    rw [hend] at hmisread
    obtain ⟨j, s, hj, hindex, hfield⟩ := hmisread k (by rw [hk])
    rw [announce_program, (data_toStatement? hstart).2] at hj
    rw [announce_program, Program.data, (data_toStatement? hstart).1] at hfield
    obtain ⟨tokens, values, hmem⟩ := Program.mem_data_iff.mp (List.mem_of_getElem? hfield)
    refine ⟨?_, j, s, tokens, values, hj, ?_, hfield, hmem⟩
    · rw [hat, hk]
      rfl
    · rw [hafter, abort_program]
      exact hindex

/-- A `READ` that is executed at once, with a number to be read and a string on line 50. -/
theorem fault_clears_read :
    ∃ m, Reachable {} m ∧ m.state = .running ∧
      m.step.1 = some ⟨.dataTypeMismatch 50, .numbered 50⟩ ∧
      (∃ (j : Nat) (s : Bytes), m.program.data[j]? = some (.str s, 50)) ∧ m.Cleared m.step.2 ∧
      (m.step.2.submit (utf8 "CONT")).1 = some ⟨.cannotContinue, .immediate⟩ ∧
      (m.step.2.submit (utf8 "RETURN")).2.step.1 = some ⟨.returnWithoutGosub, .immediate⟩ ∧
      (m.step.2.submit (utf8 "NEXT I")).2.step.1 = some ⟨.nextWithoutFor, .immediate⟩ := by
  have h : Reachable {} (((new {}).perform (.submit (utf8 "50 DATA X"))).perform
      (.submit (utf8 "READ A"))) := .perform _ (.perform _ .start)
  have hdata : (Token.read (Bytes.trimLineEnds (utf8 "50 DATA X"))).map numbered? =
      .ok (some (50, [.data [.str (utf8 "X")]])) := by decide +kernel
  have hread : Token.read (Bytes.trimLineEnds (utf8 "READ A")) =
      .ok [.keyword .READ, .symbol (utf8 "A")] := by decide +kernel
  have hreturn : Spells (utf8 "RETURN") [.keyword .RETURN] := by
    unfold Spells
    decide +kernel
  have hnext : Spells (utf8 "NEXT I") [.keyword .NEXT, .symbol (utf8 "I")] := by
    unfold Spells
    decide +kernel
  rw [perform_numbered (by decide +kernel) (by decide +kernel) hdata,
    perform_immediate (by decide +kernel) (by decide +kernel) hread rfl (by decide +kernel)] at h
  have hfault : ((((new {}).storeLine 50 [.data [.str (utf8 "X")]]).enter .idle).startImmediate
      [.keyword .READ, .symbol (utf8 "A")]).step.1 =
        some ⟨.dataTypeMismatch 50, .numbered 50⟩ := by decide +kernel
  obtain ⟨-, hfield, hcleared, hcont, hreturns, hnexts⟩ := fault_clears h rfl hfault
  obtain ⟨-, j, s, -, -, -, -, hj, -⟩ := hfield 50 rfl
  exact ⟨_, h, rfl, hfault, ⟨j, s, hj⟩, hcleared, hcont _ (by decide +kernel),
    (hreturns _ _ hreturn).2, (hnexts _ _ hnext (.inr ⟨_, rfl, by decide +kernel⟩)).2⟩

end LineBasic.Machine
