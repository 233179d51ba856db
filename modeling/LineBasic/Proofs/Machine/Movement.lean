import LineBasic.Proofs.Machine.Sound
import LineBasic.Proofs.Machine.StatementRules

/-!
# Movement along the line

Many things that are true of the parts of a statement say how the machine behind a part is related
to the one in front of it: it is further right on the line, behind certain tokens only, with the
same loops, with no other places to remember. Such a relation is reflexive and transitive, and from
there it goes from part to part in the same way, whatever the relation is.

The first of these relations is movement along the line. Parts of statements that only read the line
move along it and change nothing else.

## Main definitions

* `Machine.Leads` — an action that leads from a machine to a related one
* `Machine.Composes` — a relation that goes from one action to the next
* `Machine.Wanders` — an action that moves along the line

## Main results

* `Machine.Leads.bind`, `Machine.Leads.andThen` — one action after the other
* `Machine.Leads.assign`, `Machine.Leads.nextDatum` — what is stored and read, for all relations
* `Machine.readRules_wanders` — the parts of statements that read the line
-/

namespace LineBasic.Machine

variable {ε α β : Type} {o : Options} {m m' : Machine} {B : ε → Prop}

/-- An action that leads from a machine that executes a statement to one that is related to it by
`R`. If it stops, `E` holds of the machine in front of it, the reason, and the machine behind it. -/
def Leads (R : Options → Machine → Machine → Prop) (E : Machine → ε → Machine → Prop)
    (x : EStateM ε Machine α) : Prop :=
  ∀ (o : Options) (m : Machine), m.Active o → Concludes (fun _ m' => R o m m') (E m) (x m)

/-- The token at the location can be moved past. -/
theorem Walked.skip {t : Token} (h : m.program.peek? = some t) :
    m.Walked { m with program := m.program.skip 1 } := by
  obtain ⟨hindex, -⟩ := List.getElem?_eq_some_iff.mp h
  exact ⟨rfl, Nat.le_succ _, hindex, rfl, fun _ _ h => h⟩

/-- `R` is reflexive and transitive on the machines that execute a statement. A stop may be seen
from an earlier machine. -/
class Composes (R : Options → Machine → Machine → Prop) (E : Machine → ε → Machine → Prop) :
    Prop where
  refl : ∀ {o : Options} {m : Machine}, m.Active o → R o m m
  trans : ∀ {o : Options} {m m' m'' : Machine}, R o m m' → R o m' m'' → R o m m''
  active : ∀ {o : Options} {m m' : Machine}, R o m m' → m.Active o → m'.Active o
  stop : ∀ {o : Options} {m m' m'' : Machine} {e : ε}, R o m m' → E m' e m'' → E m e m''

namespace Leads

variable {R R' : Options → Machine → Machine → Prop} {E E' : Machine → ε → Machine → Prop}

theorem mono {x : EStateM ε Machine α} (h : Leads R E x) (hR : ∀ o m m', m.Active o → R o m m' →
    R' o m m') (hE : ∀ m e m', E m e m' → E' m e m') : Leads R' E' x :=
  fun o m hm => (h o m hm).mono (fun _ m' => hR o m m' hm) (hE m)

theorem get_bind {f : Machine → EStateM ε Machine α} (hf : ∀ m, Leads R E (f m)) :
    Leads R E (get >>= f) :=
  fun o m hm => hf m o m hm

protected theorem modify {f : Machine → Machine} (hf : ∀ {o m}, m.Active o → R o m (f m)) :
    Leads R E (modify f : EStateM ε Machine Unit) :=
  fun _ _ hm => hf hm

theorem throw {e : ε} (he : ∀ {o m}, m.Active o → E m e m) :
    Leads R E (MonadExcept.throw e : EStateM ε Machine α) :=
  fun _ _ hm => he hm

/-- Evaluation as part of execution. -/
theorem lift {E : Machine → Stop → Machine → Prop} {x : Eval α}
    (h : Leads R (fun m c => E m (.fault c)) x) : Leads R E (Machine.ofEval x) :=
  fun o m hm => concludes_ofEval (h o m hm)

section Composition

variable [Composes R E] {x : EStateM ε Machine α} {f : α → EStateM ε Machine β}

theorem pure (a : α) : Leads R E (Pure.pure a : EStateM ε Machine α) :=
  fun _ _ hm => Composes.refl (E := E) hm

/-- After a first part that is known to lead on from `m`, with a result of which `Q` holds. -/
theorem after {Q : α → Prop} (hm : m.Active o)
    (hx : Concludes (fun a m' => R o m m' ∧ Q a) (E m) (x m)) (hf : ∀ a, Q a → Leads R E (f a)) :
    Concludes (fun _ m' => R o m m') (E m) ((x >>= f) m) := by
  refine hx.bind fun a m' h => ?_
  exact (hf a h.2 o m' (Composes.active E h.1 hm)).mono (fun _ _ h' => Composes.trans E h.1 h')
    fun _ _ h' => Composes.stop h.1 h'

/-- One part after others that have led on from `m`, in front of a part that may do more. -/
theorem andThen {Q : β → Machine → Prop} {E' : ε → Machine → Prop} (hx : Leads R E x)
    (hm : m.Active o) (h : R o m m') (hE : ∀ e m'', E m e m'' → E' e m'')
    (hf : ∀ a m'', R o m m'' → Concludes Q E' (f a m'')) : Concludes Q E' ((x >>= f) m') := by
  refine Concludes.bind (Q := fun _ m'' => R o m' m'') ?_
    fun a m'' h' => hf a m'' (Composes.trans E h h')
  exact (hx o m' (Composes.active E h hm)).mono (fun _ _ h' => h')
    fun e m'' he => hE e m'' (Composes.stop h he)

theorem bind (hx : Leads R E x) (hf : ∀ a, Leads R E (f a)) : Leads R E (x >>= f) := by
  intro o m hm
  refine hx.andThen hm (Composes.refl (E := E) hm) (fun _ _ h => h) fun a m' h => ?_
  exact (hf a o m' (Composes.active E h hm)).mono (fun _ _ h' => Composes.trans E h h')
    fun _ _ h' => Composes.stop h h'

end Composition

section Reading

variable {E : Machine → Cause → Machine → Prop}

/-- A token of a kind is passed, if there is one. -/
theorem accept [Composes R E] {k : Token.Kind}
    (hskip : ∀ {o m t}, m.Active o → m.program.peek? = some t → t.kind = k → R o m m.past) :
    Leads R E (onProgram (Program.accept k)) := by
  intro o m hm
  refine concludes_onProgram ?_
  rw [Program.accept]
  split
  · next hkind =>
    obtain ⟨t, ht, htk⟩ := Option.map_eq_some_iff.mp hkind
    exact hskip hm ht htk
  · exact Composes.refl (E := E) hm

/-- A token of a kind is passed, and without one the action fails. -/
theorem expect {k : Token.Kind}
    (hskip : ∀ {o m t}, m.Active o → m.program.peek? = some t → t.kind = k → R o m m.past)
    (hstop : ∀ {o m c}, m.Active o → c.Ordinary → E m c m) :
    Leads R E (onProgram (Program.expect k)) := by
  intro o m hm
  refine concludes_onProgram ?_
  rw [Program.expect]
  cases hkind : m.program.peekKind? with
  | none => exact hstop hm nofun
  | some k' =>
    obtain ⟨t, ht, htk⟩ := Option.map_eq_some_iff.mp hkind
    dsimp only
    split
    · next heq => exact hskip hm ht (htk.trans heq)
    · exact hstop hm nofun

/-- A name is passed. What stands in its place is passed, too, before the action fails. -/
theorem nextName
    (hskip : ∀ {o m name}, m.Active o → m.program.peek? = some (.symbol name) → R o m m.past)
    (hstop : ∀ {o m m' c}, m.Active o → m.Walked m' → c.Ordinary → E m c m') :
    Leads R E (onProgram Program.nextName) := by
  intro o m hm
  refine concludes_onProgram ?_
  rw [Program.nextName]
  split
  · next ht => exact hskip hm ht
  · next ht => exact hstop hm (.skip ht) nofun
  · exact hstop hm (.refl hm.program.index) nofun

/-- A target is a name, and perhaps subscripts. -/
theorem target [Composes R E] (hname : Leads R E (onProgram Program.nextName))
    (haccept : Leads R E (onProgram (Program.accept (.mark .lparen))))
    (hsubscripts : Leads R E subscripts) : Leads R E Machine.target := by
  refine hname.bind fun name => haccept.bind fun found => ?_
  cases found with
  | true => exact hsubscripts.bind fun index => .pure _
  | false => exact .pure _

end Reading

/-- An assignment looks at what it stores to, and stores. -/
theorem assign {E : Machine → Cause → Machine → Prop} [Composes R E]
    (hwalks : ∀ {β : Type} {x : Eval β}, (∀ F d, Walks F d 0 x) → Leads R E x) {t : Target}
    {v : Value} (hscalar : ∀ name, t = .scalar name → Leads R E (setVariable name v))
    (harray : ∀ (name : Name) (g : Grid),
      Leads R E (modify fun m => { m with arrays := m.arrays.insert name g } : Eval Unit)) :
    Leads R E (Machine.assign t v) := by
  refine (hwalks fun _ _ => .checkFits t.name v).bind fun _ => ?_
  cases t with
  | scalar name => exact hscalar name rfl
  | element name index =>
    refine (hwalks fun _ _ => .arrayFor name index.length).bind fun g => ?_
    refine (hwalks fun _ _ => .ofExcept (g.failsInExpression_set index v)).bind fun g' => ?_
    exact harray name g'

/-- Reading a field of data moves on in the data only. -/
theorem nextDatum {E : Machine → Cause → Machine → Prop}
    (hdata : ∀ {o m}, m.Active o → ∀ i,
      R o m { m with program := { m.program with dataIndex := i } })
    (hend : ∀ {o m}, m.Active o → E m .outOfData m) :
    Leads R E (onProgram Program.nextDatum) := by
  intro o m hm
  refine concludes_onProgram ?_
  rw [Program.nextDatum]
  split
  · exact hdata hm _
  · exact hend hm

end Leads

/-! ### Moving along the line -/

/-- An action that moves along the line, whether it succeeds or stops. -/
def Wanders (B : ε → Prop) (x : EStateM ε Machine α) : Prop :=
  Leads (fun _ => Walked) (fun m e m' => m.Walked m' ∧ B e) x

instance : Composes (fun _ => Walked) fun m (e : ε) m' => m.Walked m' ∧ B e where
  refl hm := .refl hm.program.index
  trans h h' := h.trans h'
  active h hm := hm.walked h
  stop h h' := ⟨h.trans h'.1, h'.2⟩

namespace Wanders

theorem keeps {x : EStateM ε Machine α} (h : Wanders B x) : Keeps (Active o) B x :=
  fun m hm => (h o m hm).mono (fun _ _ h => hm.walked h) fun _ _ h => ⟨hm.walked h.1, h.2⟩

/-- In front of a part that may do more, if only the state is of interest behind it. -/
theorem andThen {x : EStateM ε Machine α} {f : α → EStateM ε Machine β} (hx : Wanders B x)
    (hm : m.Active o) (h : m.Walked m')
    (hf : ∀ a m', m.Walked m' →
      Concludes (fun _ => Active o) (fun e m' => Active o m' ∧ B e) (f a m')) :
    Concludes (fun _ => Active o) (fun e m' => Active o m' ∧ B e) ((x >>= f) m') :=
  Leads.andThen hx hm h (fun _ _ h' => ⟨hm.walked h'.1, h'.2⟩) hf

/-- Evaluation that takes no tokens. -/
theorem of_walks {x : Eval α} (h : ∀ F d, Walks F d 0 x) : Wanders Cause.Ordinary x :=
  fun _ m hm => (h _ _ m hm.fit hm.program.index).mono (fun _ _ h => h.1)
    fun _ _ h => ⟨h.1, Cause.ordinary_of_inExpression h.2⟩

theorem ofExcept {r : Except Cause α} (hr : FailsInExpression r) :
    Wanders Cause.Ordinary (Machine.ofExcept r) :=
  of_walks fun _ _ => .ofExcept hr

theorem ofEval {x : Eval α} (h : Wanders Cause.Ordinary x) :
    Wanders Stop.Ordinary (Machine.ofEval x) :=
  Leads.lift h

end Wanders

/-! ### Tokens and expressions at the location -/

/-- Moving to a place further right that is found by looking at the line. -/
theorem Wanders.moveAlong {f : Program → Program} (hf : ∀ p : Program,
    p.location.index ≤ p.current.length →
    ∃ i, f p = p.atIndex i ∧ p.location.index ≤ i ∧ i ≤ p.current.length) :
    Wanders Stop.Ordinary (modifyProgram f) := by
  intro o m hm
  obtain ⟨i, hfm, hforward, hwithin⟩ := hf m.program hm.program.index
  rw [modifyProgram, modify_apply, hfm]
  exact ⟨rfl, hforward, hwithin, rfl, fun _ _ h => h⟩

theorem wanders_accept (k : Token.Kind) :
    Wanders Cause.Ordinary (onProgram (Program.accept k)) :=
  .accept fun _ ht _ => .skip ht

theorem wanders_expect (k : Token.Kind) :
    Wanders Cause.Ordinary (onProgram (Program.expect k)) :=
  .expect (fun _ ht _ => .skip ht) fun hm hc => ⟨.refl hm.program.index, hc⟩

theorem wanders_nextName : Wanders Cause.Ordinary (onProgram Program.nextName) :=
  .nextName (fun _ ht => .skip ht) fun _ hwalked hc => ⟨hwalked, hc⟩

theorem wanders_expression : Wanders Cause.Ordinary expression :=
  fun _ _ hm => (hm.fit.expression hm.program.index).mono (fun _ _ h => h.1)
    fun _ _ h => ⟨h.1, Cause.ordinary_of_inExpression h.2⟩

theorem wanders_numberExpression : Wanders Cause.Ordinary numberExpression :=
  wanders_expression.bind fun v => Wanders.ofExcept v.failsInExpression_number

theorem wanders_subscripts : Wanders Cause.Ordinary subscripts :=
  fun _ _ hm => (hm.fit.subscripts hm.program.index).mono (fun _ _ h => h.1)
    fun _ _ h => ⟨h.1, Cause.ordinary_of_inExpression h.2⟩

theorem wanders_target : Wanders Cause.Ordinary target :=
  .target wanders_nextName (wanders_accept _) wanders_subscripts

/-- The tokens in front of an `ELSE` or a colon are on the line. -/
theorem length_takeWhile_rest_le {p : Program} (h : p.location.index ≤ p.current.length)
    (f : Token → Bool) :
    p.location.index + (p.rest.takeWhile f).length ≤ p.current.length := by
  have hle := (List.takeWhile_prefix (p := f) (l := p.rest)).length_le
  rw [Program.length_rest] at hle
  omega

theorem wanders_discardRest : Wanders Stop.Ordinary (modifyProgram Program.discardRest) :=
  .moveAlong fun p hp => ⟨p.current.length, rfl, hp, Nat.le_refl _⟩

theorem wanders_skipStatement : Wanders Stop.Ordinary (modifyProgram Program.skipStatement) :=
  .moveAlong fun _ hp => ⟨_, rfl, Nat.le_add_right _ _, length_takeWhile_rest_le hp _⟩

/-- A branch that is not taken is walked past. -/
theorem wanders_skipBranch : Wanders Stop.Ordinary skipBranch := by
  intro o m hm
  rw [skipBranch, get_bind_apply]
  generalize hpeek : (m.program.skip
    (m.program.rest.takeWhile (!endsBranch ·)).length).peek? = peeked
  split
  · obtain ⟨hindex, -⟩ := List.getElem?_eq_some_iff.mp hpeek
    exact ⟨rfl, Nat.le_add_right_of_le (Nat.le_add_right _ _), hindex, rfl, fun _ _ h => h⟩
  · exact ⟨rfl, hm.program.index, Nat.le_refl _, rfl, fun _ _ h => h⟩

/-- The parts of statements that read the line. -/
theorem readRules_wanders : ReadRules (fun _ => True) fun _ => Wanders Stop.Ordinary where
  pure := .pure
  bind := .bind
  look _ hf := .get_bind fun m => hf m trivial
  fail hc _ := .throw fun hm => ⟨.refl hm.program.index, hc⟩
  ofExcept hr := .ofEval (.ofExcept hr)
  accept _ := (wanders_accept _).ofEval
  expect _ := (wanders_expect _).ofEval
  nextName := wanders_nextName.ofEval
  expression := wanders_expression.ofEval
  numberExpression := wanders_numberExpression.ofEval
  subscripts := wanders_subscripts.ofEval
  target := wanders_target.ofEval

end LineBasic.Machine
