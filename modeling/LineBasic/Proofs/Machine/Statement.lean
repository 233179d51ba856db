import LineBasic.Machine.Step
import LineBasic.Proofs.Machine.Movement

/-!
# Statements keep the machine sound

Every statement, however it ends, leaves a machine of which the same holds as before, and none of
them finds an inconsistency. Most statements have this from their parts. There is a lemma of its own
for each part that does more than read the line, and for the statements that have to know where they
are: an `INPUT`, a branch of an `IF`, a `DEF`.

Most parts only move along the line. The others transfer control, store a value or define a
function. An `INPUT` that waits goes back to its own keyword, which is still in front of the
location on the same line, since nothing between the two leaves the line.

## Main definitions

* `Machine.Safe` — a statement that keeps the machine sound and finds no inconsistency

## Main results

* `Machine.safe_statement` — every statement is safe
* `Machine.safe_execute` — and so is all that a step executes
-/

namespace LineBasic.Machine

/-- What is done as part of a statement keeps the machine sound and finds no inconsistency. -/
def Safe {α : Type} (o : Options) (x : Exec α) : Prop :=
  Keeps (Active o) Stop.Ordinary x

variable {α β : Type} {o : Options} {m : Machine}

namespace Safe

theorem bind {x : Exec α} {f : α → Exec β} (hx : Safe o x) (hf : ∀ a, Safe o (f a)) :
    Safe o (x >>= f) :=
  Keeps.bind hx hf

theorem pure (a : α) : Safe o (Pure.pure a : Exec α) :=
  Keeps.pure a

theorem fail {c : Cause} (hc : c.Ordinary) : Safe o (fail c : Exec α) :=
  Keeps.throw hc

theorem get_bind {f : Machine → Exec α} (hf : ∀ m, Safe o (f m)) : Safe o (get >>= f) :=
  fun m hm => hf m m hm

/-- Parts that move along the line. -/
theorem wander {x : Eval α} (h : Wanders Cause.Ordinary x) : Safe o (ofEval x) :=
  h.ofEval.keeps

/-- Transfer of control. -/
theorem flow {x : Program.Action α}
    (h : ∀ L, Keeps (Program.Live o L) Cause.Ordinary x) : Safe o (ofEval (onProgram x)) := by
  intro m hm
  refine concludes_ofEval (concludes_onProgram ?_)
  exact (h m.program.lines m.program hm.program).mono (fun _ _ hp => hm.withProgram hp)
    fun _ _ hp => ⟨hm.withProgram hp.1, hp.2⟩

/-- Changes of what is neither the program nor the functions nor the state. -/
theorem modify {f : Machine → Machine} (hprogram : ∀ m, (f m).program = m.program)
    (hfunctions : ∀ m, (f m).functions = m.functions) (hstate : ∀ m, (f m).state = m.state) :
    Safe o (modify f) :=
  Keeps.modify fun m hm => hm.congr (hprogram m) (hfunctions m) (hstate m)

end Safe

/-! ### Parts of statements -/

/-- Storing a value touches neither the program nor the functions. -/
theorem safe_setVariable (name : Name) (v : Value) : Safe o (ofEval (setVariable name v)) :=
  keeps_ofEval (Keeps.modify fun _ hm => hm.congr rfl rfl rfl)

theorem safe_assign (t : Target) (v : Value) : Safe o (ofEval (assign t v)) := by
  refine keeps_ofEval ?_
  refine (Wanders.of_walks fun _ _ => .checkFits t.name v).keeps.bind fun _ => ?_
  cases t with
  | scalar name => exact Keeps.modify fun _ hm => hm.congr rfl rfl rfl
  | element name index =>
    refine (Wanders.of_walks fun _ _ => .arrayFor name index.length).keeps.bind fun g => ?_
    refine (Wanders.ofExcept (g.failsInExpression_set index v)).keeps.bind fun g' => ?_
    exact Keeps.modify fun _ hm => hm.congr rfl rfl rfl

/-- The parts of statements that read the line only move along it. -/
theorem execRules_safe (o : Options) : ExecRules (fun _ => True) fun _ => Safe o where
  toReadRules := readRules_wanders.mono (·.keeps) .bind fun hf => .get_bind fun m => hf m trivial
  assign := safe_assign
  emit _ := .modify (fun _ => rfl) (fun _ => rfl) fun _ => rfl
  ask _ := .modify (fun _ => rfl) (fun _ => rfl) fun _ => rfl

/-! ### Statements that stay on the line -/

theorem safe_dimItem : Safe o dimItem :=
  (execRules_safe o).dimItem fun _ _ => .modify (fun _ => rfl) (fun _ => rfl) fun _ => rfl

theorem safe_printStatement : Safe o printStatement :=
  (execRules_safe o).printStatement

/-! ### `INPUT` -/

/-- What holds of an `INPUT` from its keyword on: the keyword is in front of the location. -/
structure AfterInput (o : Options) (m : Machine) : Prop extends Active o m where
  keyword : ∃ i < m.program.location.index,
    m.program.current[i]?.map Token.kind = some (.keyword .INPUT)

namespace AfterInput

variable {m m' : Machine}

theorem walked (h : m.AfterInput o) (hwalked : m.Walked m') : m'.AfterInput o := by
  refine ⟨h.toActive.walked hwalked, ?_⟩
  obtain ⟨i, hi, hkind⟩ := h.keyword
  exact ⟨i, Nat.lt_of_lt_of_le hi hwalked.forward, by rw [hwalked.current, hkind]⟩

theorem congr (h : m.AfterInput o) (hprogram : m'.program = m.program)
    (hfunctions : m'.functions = m.functions) (hstate : m'.state = m.state) :
    m'.AfterInput o := by
  refine ⟨h.toActive.congr hprogram hfunctions hstate, ?_⟩
  rw [hprogram]
  exact h.keyword

end AfterInput

/-- The search for a token goes back as far as it has to. -/
theorem exists_lastBefore? {tokens : List Token} {k : Token.Kind} {i index : Nat} (hi : i < index)
    (hkind : tokens[i]?.map Token.kind = some k) :
    ∃ j < index, Program.lastBefore? tokens k index = some j := by
  induction index with
  | zero => omega
  | succ n ih =>
    rw [Program.lastBefore?]
    split
    · exact ⟨n, Nat.lt_succ_self n, rfl⟩
    · next hn =>
      have hne : i ≠ n := by
        rintro rfl
        exact hn hkind
      obtain ⟨j, hlt, hj⟩ := ih (by omega)
      exact ⟨j, by omega, hj⟩

/-- An `INPUT` that waits finds its keyword. -/
theorem AfterInput.suspend (h : m.AfterInput o) (prompt : Bytes) :
    Concludes (fun _ => Active o) (fun e m' => Active o m' ∧ Stop.Ordinary e)
      (suspend prompt m) := by
  obtain ⟨i, hi, hkind⟩ := h.keyword
  obtain ⟨j, hlt, hj⟩ := exists_lastBefore? hi hkind
  have hindex := h.program.index
  have hrewind : ofEval (onProgram (Program.rewindBefore (.keyword .INPUT))) m =
      .ok true { m with program := m.program.atIndex j } := by
    rw [ofEval, onProgram, Program.rewindBefore, if_neg (by omega), Program.rewindBefore?, hj]
    rfl
  refine Concludes.bind (x := ofEval (onProgram (Program.rewindBefore (.keyword .INPUT))))
    (Q := fun found m' => found = true ∧ Active o m') ?_ ?_
  · rw [hrewind]
    exact ⟨rfl, h.toActive.withProgram (h.program.atIndex (by omega))⟩
  · rintro _ m' ⟨rfl, hm'⟩
    exact ⟨hm'.congr rfl rfl rfl, trivial⟩

theorem safe_endBranch (keyword : Location) : Safe o (endBranch keyword) := by
  refine .get_bind fun m => ?_
  split
  · exact Keeps.modify fun m hm =>
      (hm.withProgram (hm.program.atIndex (Nat.le_refl _))).congr rfl rfl rfl
  · exact .pure ()

theorem safe_storeReply (t : Target) (v : Value) (extra : Bool) (keyword : Location) :
    Safe o (storeReply t v extra keyword) :=
  (execRules_safe o).storeReply (safe_endBranch keyword) t v extra

/-- A reply has a first value. -/
theorem AfterInput.takeReply (h : m.AfterInput o) (t : Target) (reply prompt : Bytes)
    (keyword : Location) :
    Concludes (fun _ => Active o) (fun e m' => Active o m' ∧ Stop.Ordinary e)
      (takeReply t reply prompt keyword m) := by
  obtain ⟨vs, hvalues⟩ := Field.readAll_eq_cons reply
  rw [Machine.takeReply]
  dsimp only
  rw [hvalues, firstValue, pure_bind]
  generalize t.name.isString = string, (Field.read reply).1 = first
  cases string with
  | true => exact safe_storeReply t _ _ _ m h.toActive
  | false =>
    cases first with
    | num x => exact safe_storeReply t _ _ _ m h.toActive
    | str s =>
      refine Concludes.bind (Q := fun _ => AfterInput o) (h.congr rfl rfl rfl) fun _ m' h' => ?_
      exact h'.suspend prompt

theorem AfterInput.inputStatement (h : m.AfterInput o) :
    Concludes (fun _ => Active o) (fun e m' => Active o m' ∧ Stop.Ordinary e)
      (inputStatement m) := by
  have hm := h.toActive
  rw [Machine.inputStatement, get_bind_apply]
  have hrules := readRules_wanders
  refine hrules.promptText.andThen hm (.refl hm.program.index) fun prompt m₁ h₁ => ?_
  refine hrules.target.andThen hm h₁ fun t m₂ h₂ => ?_
  refine hrules.expectStatementEnd.andThen hm h₂ fun _ m₃ h₃ => ?_
  -- the line was not left so far, so the keyword is still in front of the location
  have hafter := h.walked h₃
  rw [get_bind_apply]
  cases m₃.reply with
  | none => exact hafter.suspend prompt
  | some reply =>
    refine Concludes.bind (Q := fun _ => AfterInput o) (hafter.congr rfl rfl rfl) ?_
    exact fun _ m₄ h₄ => h₄.takeReply t reply prompt _

/-! ### Jumps and branches -/

theorem safe_goTo (n : Nat) : Safe o (ofEval (onProgram (Program.goTo n))) :=
  .flow fun _ => Program.keeps_goTo n

theorem safe_aloneOnLine {statement : Exec Unit} (h : Safe o statement) :
    Safe o (aloneOnLine statement) := fun m hm =>
  concludes_aloneOnLine (h m hm)
    (fun _ hm' => hm'.withProgram (hm'.program.atIndex (Nat.le_refl _)))
    fun _ hm' => ⟨hm'.1.congr rfl rfl rfl, trivial⟩

/-! ### Loops -/

theorem safe_nextLoop (name : Name) : Safe o (nextLoop name) :=
  (execRules_safe o).nextLoop (fun value => .flow fun _ => Program.keeps_endLoop name value)
    fun x => safe_setVariable name (.num x)

theorem safe_nextItem : Safe o nextItem :=
  (execRules_safe o).nextItem safe_nextLoop

/-! ### Definitions and data -/

/-- A statement that is not used up goes on with a token. -/
theorem index_lt_of_atStatementEnd {p : Program} (h : p.atStatementEnd = false) :
    p.location.index < p.current.length := by
  rw [Program.atStatementEnd] at h
  split at h
  · next t hpeek => exact (List.getElem?_eq_some_iff.mp hpeek).1
  · cases h

/-- The place of a body is kept only if the body is on a numbered line. -/
theorem Active.define (h : m.Active o) {n : Nat} (hline : m.program.location.line = .numbered n)
    (hend : m.program.atStatementEnd = false) (name first : Name) (others : List Name) :
    { m with
      functions := m.functions.insert name ⟨first, others, m.program.location⟩ }.Active o := by
  refine ⟨h.program, fun other f hf => ?_, h.running⟩
  rw [Std.ExtTreeMap.getElem?_insert] at hf
  split at hf
  · cases hf
    have hsynced := h.program.synced
    rw [Program.Synced, hline] at hsynced
    exact ⟨n, m.program.current, hline, hsynced, index_lt_of_atStatementEnd hend⟩
  · exact h.bodies other f hf

theorem safe_defStatement : Safe o defStatement := by
  intro m hm
  rw [defStatement, get_bind_apply]
  cases hline : m.program.location.line with
  | immediate => exact ⟨hm, nofun⟩
  | numbered n =>
    refine wanders_nextName.ofEval.andThen hm (.refl hm.program.index) fun name m₁ h₁ => ?_
    refine (wanders_expect _).ofEval.andThen hm h₁ fun _ m₂ h₂ => ?_
    refine wanders_nextName.ofEval.andThen hm h₂ fun first m₃ h₃ => ?_
    rw [get_bind_apply]
    refine (readRules_wanders.moreNames _).andThen hm h₃ fun others m₄ h₄ => ?_
    refine (wanders_expect _).ofEval.andThen hm h₄ fun _ m₅ h₅ => ?_
    refine (wanders_expect _).ofEval.andThen hm h₅ fun _ m₆ h₆ => ?_
    have hm₆ := hm.walked h₆
    have hline₆ : m₆.program.location.line = .numbered n := by
      rw [h₆.program]
      exact hline
    rw [get_bind_apply]
    cases hend : m₆.program.atStatementEnd with
    | true => exact ⟨hm₆, nofun⟩
    | false =>
      exact Concludes.bind (Q := fun _ => Active o) (hm₆.define hline₆ hend name first others)
        fun _ m₇ hm₇ => wanders_skipStatement.keeps m₇ hm₇

theorem safe_readItem : Safe o readItem :=
  (execRules_safe o).readItem (.flow fun _ => Program.keeps_nextDatum) fun _ => .fail nofun

/-! ### Every statement -/

/-- Every statement is safe, by induction on the tokens left: an `IF` executes another statement
further right. -/
theorem safe_statement (tokens : Nat) : Safe o (statement tokens) := by
  have hrules := execRules_safe o
  induction tokens with
  | zero => exact .fail nofun
  | succ tokens ih =>
    intro m hm
    rw [statement, get_bind_apply]
    generalize hpeek : m.program.peek? = peeked
    split
    · exact ⟨hm, nofun⟩
    · exact hrules.letStatement m hm
    · next t _ =>
      refine Concludes.bind (x := modifyProgram (·.skip 1))
        (Q := fun _ m' => m'.Active o ∧ (t.kind = .keyword .INPUT → m'.AfterInput o)) ?_ ?_
      · have hskipped := hm.walked (.skip hpeek)
        refine ⟨hskipped, fun hkind => ⟨hskipped, m.program.location.index, Nat.lt_succ_self _, ?_⟩⟩
        rw [← hkind]
        exact congrArg (Option.map Token.kind) hpeek
      · rintro _ m' ⟨hm', hinput⟩
        split
        · exact hm'
        · exact hm'
        · exact hm'
        · exact wanders_discardRest.keeps m' hm'
        · exact hrules.letStatement m' hm'
        · exact hrules.dimStatement safe_dimItem m' hm'
        · exact safe_printStatement m' hm'
        · exact safe_printStatement m' hm'
        · exact (hinput rfl).inputStatement
        · exact hrules.ifStatement
            (hrules.chooseBranch (.wander (wanders_accept _)) wanders_skipBranch.keeps)
            (hrules.branch safe_goTo (safe_aloneOnLine ih)) m' hm'
        · exact hrules.gotoStatement safe_goTo m' hm'
        · exact hrules.gosubStatement (fun n => .flow fun _ => Program.keeps_gosub n) m' hm'
        · exact Safe.flow (fun _ => Program.keeps_returnFromGosub) m' hm'
        · exact ⟨hm', trivial⟩
        · exact ⟨hm', trivial⟩
        · exact hrules.forStatement (fun name x _ => safe_setVariable name (.num x))
            (fun _ limit step hname => .flow fun _ => Program.keeps_startLoop hname limit step)
            m' hm'
        · exact hrules.nextStatement safe_nextLoop m' hm'
        · exact hm'.withProgram { hm'.program with synced := hm'.program.synced }
        · exact safe_defStatement m' hm'
        · exact hrules.items safe_readItem m' hm'
        · exact ⟨hm', nofun⟩

theorem safe_clearJumped : Safe o (modifyProgram Program.clearJumped) :=
  Keeps.modify fun _ hm => hm.withProgram (hm.program.withJumped false)

theorem safe_execute : Safe o execute := by
  refine .bind (Wanders.keeps (.moveAlong fun _ hp =>
    ⟨_, rfl, Nat.le_add_right _ _, length_takeWhile_rest_le hp _⟩)) fun _ => ?_
  refine .get_bind fun m => ?_
  split
  · exact .pure ()
  · refine safe_clearJumped.bind fun _ => .get_bind fun m => ?_
    exact (safe_statement _).bind fun _ =>
      (execRules_safe o).endStatement (.wander (wanders_accept _)) wanders_discardRest.keeps

end LineBasic.Machine
