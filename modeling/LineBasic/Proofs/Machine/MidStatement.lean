import LineBasic.Proofs.Machine.TokensPassed

/-!
# Parts of a statement that do not transfer control

Until a statement transfers control, the machine is in the middle of it: further right on the line,
behind tokens that stand inside a statement. Values may have been stored and things shown, a `READ`
has moved on in the data, and a `NEXT` has dropped loops that are over. Nothing else has changed, so
that what is known about the start of a statement is still known where it transfers control.

## Main definitions

* `Machine.Within` — a machine in the middle of a statement, as seen from an earlier place of it
* `Machine.Stays` — parts of statements that do not leave the statement

## Main results

* `Machine.Within.active` — what holds during a statement still holds in the middle of it
* `Machine.execRules_stays` — the parts of statements that do not transfer control
* `Machine.stays_printStatement`, `Machine.stays_readItem` and others — statements made of them
-/

namespace LineBasic.Machine

variable {ε α β : Type} {o : Options} {n m m' : Machine} {B : ε → Prop}

/-- `m` is further right in the statement that `n` is at or in. -/
structure Within (n m : Machine) : Prop where
  program : m.program =
    { n.program with
      location.index := m.program.location.index
      loops := m.program.loops
      dataIndex := m.program.dataIndex }
  loops : m.program.loops.Sublist n.program.loops
  forward : n.program.location.index ≤ m.program.location.index
  within : m.program.location.index ≤ n.program.current.length
  inside : Inside n.program.current n.program.location.index m.program.location.index
  functions : m.functions = n.functions
  state : m.state = n.state
  reply : m.reply = n.reply
  branchInput : m.branchInput = n.branchInput

namespace Within

theorem refl (h : n.program.location.index ≤ n.program.current.length) : n.Within n where
  program := rfl
  loops := .refl _
  forward := Nat.le_refl _
  within := h
  inside := .refl _ _
  functions := rfl
  state := rfl
  reply := rfl
  branchInput := rfl

theorem current (h : n.Within m) : m.program.current = n.program.current := by
  rw [h.program]

theorem line (h : n.Within m) : m.program.location.line = n.program.location.line := by
  rw [h.program]

theorem trans (h : n.Within m) (h' : m.Within m') : n.Within m' where
  program := by
    rw [h'.program, h.program]
  loops := h'.loops.trans h.loops
  forward := Nat.le_trans h.forward h'.forward
  within := h.current ▸ h'.within
  inside := h.inside.trans (h.current ▸ h'.inside)
  functions := h'.functions.trans h.functions
  state := h'.state.trans h.state
  reply := h'.reply.trans h.reply
  branchInput := h'.branchInput.trans h.branchInput

theorem of_trod (h : n.Trod m) : n.Within m where
  program := by
    rw [h.program]
    rfl
  loops := by
    rw [h.program]
    exact .refl _
  forward := h.forward
  within := h.within
  inside := h.inside
  functions := h.functions
  state := by rw [h.same]
  reply := by rw [h.same]
  branchInput := by rw [h.same]

/-- What holds during a statement still holds in the middle of it. -/
theorem active (h : n.Within m) (hn : n.Active o) : m.Active o := by
  have hlive : m.program.Live o n.program.lines := by
    rw [h.program]
    exact { hn.program.toSound.withLoops h.loops with
      index := h.within
      synced := hn.program.synced
      stored := rfl }
  exact (hn.withProgram hlive).congr rfl h.functions h.state

/-- What a statement stores and shows plays no part. -/
theorem congr (h : n.Within m) (hprogram : m'.program = m.program)
    (hfunctions : m'.functions = m.functions) (hstate : m'.state = m.state)
    (hreply : m'.reply = m.reply) (hbranchInput : m'.branchInput = m.branchInput) :
    n.Within m' where
  program := by
    rw [hprogram]
    exact h.program
  loops := by
    rw [hprogram]
    exact h.loops
  forward := by
    rw [hprogram]
    exact h.forward
  within := by
    rw [hprogram]
    exact h.within
  inside := by
    rw [hprogram]
    exact h.inside
  functions := hfunctions.trans h.functions
  state := hstate.trans h.state
  reply := hreply.trans h.reply
  branchInput := hbranchInput.trans h.branchInput

end Within

/-- A part of a statement that does not leave the statement. It stops only for the reasons in `B`.
-/
def Stays (B : ε → Prop) (x : EStateM ε Machine α) : Prop :=
  Leads (fun _ => Within) (fun _ e _ => B e) x

instance : Composes (fun _ => Within) fun _ (e : ε) _ => B e where
  refl hm := .refl hm.program.index
  trans h h' := h.trans h'
  active h hm := h.active hm
  stop _ he := he

namespace Stays

/-- Parts that move along the line. -/
theorem of_treads {x : EStateM ε Machine α} (h : Treads B x) : Stays B x :=
  h.mono (fun _ _ _ _ => .of_trod) fun _ _ _ he => he

/-- Storing a value and showing something. -/
theorem modify {f : Machine → Machine}
    (hf : ∀ m, ∃ scalars arrays output, f m = { m with scalars, arrays, output }) :
    Stays B (modify f) := by
  refine Leads.modify fun {o m} hm => ?_
  obtain ⟨scalars, arrays, output, hfm⟩ := hf m
  rw [hfm]
  exact (Within.refl hm.program.index).congr rfl rfl rfl rfl rfl

/-- Evaluation that moves along the line, as part of a statement. -/
theorem tread {x : Eval α} (h : Treads (fun _ => True) x) :
    Stays Stop.IsFault (Machine.ofEval x) :=
  of_treads h.ofEval

end Stays

/-! ### Parts of statements -/

/-- The items of a list, when an item after which another one is due leaves the machine as `I` says,
and every end of the list is as `Q` says. -/
theorem concludes_items {item : Exec Bool} {I Q : Machine → Prop}
    (hitem : ∀ m, I m → Concludes (fun again m' => Q m' ∧ (again = true → I m'))
      (fun e _ => e.IsFault) (item m))
    (hcomma : ∀ m, I m → Concludes (fun _ m' => Q m' ∧ I m') (fun e _ => e.IsFault)
      (accept (.mark .comma) m)) (hm : I m) :
    Concludes (fun _ m' => Q m') (fun e _ => e.IsFault) (items item m) := by
  rw [items, get_bind_apply]
  generalize m.program.rest.length = more
  induction more generalizing m with
  | zero => exact (hitem m hm).bind fun _ _ h => h.1
  | succ more ih =>
    refine (hitem m hm).bind ?_
    rintro again m' ⟨hQ, hI⟩
    cases again with
    | false => exact hQ
    | true =>
      refine (hcomma m' (hI rfl)).bind ?_
      rintro found m'' ⟨hQ', hI'⟩
      cases found with
      | false => exact hQ'
      | true => exact ih hI'

theorem stays_setVariable (name : Name) (v : Value) :
    Stays (fun _ => True) (setVariable name v) :=
  .modify fun _ => ⟨_, _, _, rfl⟩

theorem stays_assign (t : Target) (v : Value) : Stays (fun _ => True) (assign t v) :=
  .assign (fun h => Stays.of_treads (.of_walks h)) (fun name _ => stays_setVariable name v)
    fun _ _ => Stays.modify fun _ => ⟨_, _, _, rfl⟩

/-- Moving on in the data does not leave the statement. -/
theorem Within.atDatum (h : n.Within m) (i : Nat) :
    n.Within { m with program := { m.program with dataIndex := i } } :=
  { h with
    program := by rw [h.program] }

theorem stays_nextDatum : Stays (fun _ => True) (onProgram Program.nextDatum) :=
  .nextDatum (fun hm => (Within.refl hm.program.index).atDatum) fun _ => trivial

theorem stays_restore : Stays Stop.IsFault (modifyProgram Program.restore) :=
  Leads.modify fun hm => (Within.refl hm.program.index).atDatum 0

/-! ### Statements that do not transfer control -/

/-- The parts of statements that read the line move along it, and what is stored or shown does not
leave the statement. -/
theorem execRules_stays : ExecRules (fun _ => True) fun _ => Stays Stop.IsFault where
  toReadRules := readRules_treads.mono .of_treads .bind fun hf => .get_bind fun m => hf m trivial
  assign t v := (stays_assign t v).ofEval
  emit _ := .modify fun _ => ⟨_, _, _, rfl⟩
  ask _ := Leads.modify fun hm => (Within.refl hm.program.index).congr rfl rfl rfl rfl rfl

theorem stays_dimItem : Stays Stop.IsFault dimItem :=
  execRules_stays.dimItem fun _ _ => .modify fun _ => ⟨_, _, _, rfl⟩

theorem stays_printStatement : Stays Stop.IsFault printStatement :=
  execRules_stays.printStatement

theorem stays_readItem : Stays Stop.IsFault readItem :=
  execRules_stays.readItem stays_nextDatum.ofEval fun _ => .fail _

end LineBasic.Machine
