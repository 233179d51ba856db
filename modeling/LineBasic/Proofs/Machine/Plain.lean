import LineBasic.Proofs.Machine.Assign
import LineBasic.Proofs.Machine.PrintLine
import LineBasic.Proofs.Machine.Written

/-!
# Statements that leave a variable alone

An assignment, a `PRINT`, a `READ` and a `RESTORE` go on to what follows them. They change no
pending loop, and no variable other than those that they assign. What they assign can be seen from
their tokens.

## Main definitions

* `Machine.Steady` — a machine in the middle of a statement, with the same loops and the same value
  of a variable
* `Plain` — an assignment, a `PRINT`, a `READ` or a `RESTORE`, as it is written
* `Plain.Avoids` — a variable is not among those that a statement assigns

## Main results

* `Machine.Within.rest_of_ends` — a statement ends at the first colon
* `Machine.concludes_plain` — a statement leaves alone what it does not assign
-/

namespace LineBasic

/-- An assignment, a `PRINT`, a `READ` or a `RESTORE`, as it is written. The keyword of an
assignment may be left out, and a `PRINT` may be written as a question mark. -/
inductive Plain where
  | assign (keyword : Bool) (target : Written) (value : List Token)
  | print (keyword : Bool) (items : List Token)
  | read (first : Written) (others : List Written)
  | restore
deriving DecidableEq

namespace Plain

/-- The tokens of a statement. -/
def tokens : Plain → List Token
  | .assign true w value => .keyword .LET :: (w.tokens ++ .mark .equal :: value)
  | .assign false w value => w.tokens ++ .mark .equal :: value
  | .print true items => .keyword .PRINT :: items
  | .print false items => .mark .question :: items
  | .read w ws => .keyword .READ :: Written.list w ws
  | .restore => [.keyword .RESTORE]

/-- What a statement assigns. -/
def targets : Plain → List Written
  | .assign _ w _ => [w]
  | .read w ws => w :: ws
  | .print _ _ | .restore => []

/-- The tokens are those of one statement. -/
structure Proper (p : Plain) : Prop where
  single : ∀ t ∈ p.tokens, t.endsStatement = false
  closed : ∀ w ∈ p.targets, w.Closed

/-- A statement does not assign a variable. -/
def Avoids (p : Plain) (name : Name) : Prop :=
  ∀ w ∈ p.targets, w ≠ .scalar name

end Plain

namespace Machine

variable {ε α β : Type} {o : Options} {n m m' : Machine} {B : ε → Prop} {name : Name}

/-- `m` is further right in the statement that `n` is at or in, and neither the loops nor the
variable `name` have changed. -/
structure Steady (name : Name) (n m : Machine) : Prop extends Within n m where
  kept : m.program.loops = n.program.loops
  value : m.scalars[name]? = n.scalars[name]?

namespace Steady

theorem refl (h : n.program.location.index ≤ n.program.current.length) : n.Steady name n :=
  ⟨.refl h, rfl, rfl⟩

theorem trans (h : n.Steady name m) (h' : m.Steady name m') : n.Steady name m' :=
  ⟨h.toWithin.trans h'.toWithin, h'.kept.trans h.kept, h'.value.trans h.value⟩

theorem of_trod (h : n.Trod m) : n.Steady name m := by
  refine ⟨.of_trod h, ?_, ?_⟩
  · rw [h.program]
    rfl
  · rw [h.same]

end Steady

/-- A part of a statement that does not leave the statement and leaves the loops and the variable
`name` alone. It stops only for the reasons in `B`. -/
def Spares (name : Name) (B : ε → Prop) (x : EStateM ε Machine α) : Prop :=
  Leads (fun _ => Steady name) (fun _ e _ => B e) x

instance : Composes (fun _ => Steady name) fun _ (e : ε) _ => B e where
  refl hm := .refl hm.program.index
  trans h h' := h.trans h'
  active h hm := h.active hm
  stop _ he := he

namespace Spares

/-- Parts that move along the line. -/
theorem of_treads {x : EStateM ε Machine α} (h : Treads B x) : Spares name B x :=
  h.mono (fun _ _ _ _ => .of_trod) fun _ _ _ he => he

/-- Storing another value and showing something. -/
theorem modify {f : Machine → Machine}
    (hf : ∀ m, ∃ scalars arrays output, f m = { m with scalars, arrays, output } ∧
      scalars[name]? = m.scalars[name]?) :
    Spares name B (modify f) := by
  refine Leads.modify fun {o m} hm => ?_
  obtain ⟨scalars, arrays, output, hfm, hvalue⟩ := hf m
  rw [hfm]
  exact ⟨(Within.refl hm.program.index).congr rfl rfl rfl rfl rfl, rfl, hvalue⟩

/-- Evaluation that moves along the line, as part of a statement. -/
theorem tread {x : Eval α} (h : Treads (fun _ => True) x) :
    Spares name Stop.IsFault (Machine.ofEval x) :=
  of_treads h.ofEval

end Spares

/-! ### Parts of statements -/

/-- An assignment leaves other variables alone. -/
theorem spares_assign {t : Target} (ht : t ≠ .scalar name) (v : Value) :
    Spares name (fun _ => True) (assign t v) := by
  refine .assign (fun h => Spares.of_treads (.of_walks h)) (fun other heq => ?_)
    fun _ _ => Spares.modify fun _ => ⟨_, _, _, rfl, rfl⟩
  have hne : other ≠ name := fun h => ht (by rw [heq, h])
  refine Spares.modify fun m => ⟨_, _, _, rfl, ?_⟩
  rw [Std.ExtTreeMap.getElem?_insert, if_neg (by simpa using hne)]

/-- Moving on in the data leaves all variables alone. -/
theorem Steady.atDatum (h : n.Steady name m) (i : Nat) :
    n.Steady name { m with program := { m.program with dataIndex := i } } :=
  ⟨h.toWithin.atDatum i, h.kept, h.value⟩

theorem spares_nextDatum : Spares name (fun _ => True) (onProgram Program.nextDatum) :=
  .nextDatum (fun hm => (Steady.refl hm.program.index).atDatum) fun _ => trivial

theorem spares_restore : Spares name Stop.IsFault (modifyProgram Program.restore) :=
  Leads.modify fun hm => (Steady.refl hm.program.index).atDatum 0

/-- What a `READ` does with a field of data. -/
def storeDatum (t : Target) (datum : Value × Nat) : Exec Bool := do
  let v ←
    match t.name.isString, datum.1 with
    | true, v => pure (Value.str v.text)
    | false, .num x => pure (.num x)
    | false, .str _ => fail (.dataTypeMismatch datum.2)
  assign t v
  return true

theorem readItem_eq :
    readItem = (do
      let t ← target
      storeDatum t (← Program.nextDatum)) := rfl

/-- A field of data is stored, or it has the wrong type. -/
theorem storeDatum_cases (t : Target) (datum : Value × Nat) :
    (∃ v, storeDatum t datum = (do
        assign t v
        return true)) ∨
      storeDatum t datum = fail (.dataTypeMismatch datum.2) := by
  rw [storeDatum]
  split
  · exact .inl ⟨_, rfl⟩
  · exact .inl ⟨_, rfl⟩
  · exact .inr rfl

theorem spares_storeDatum {t : Target} (ht : t ≠ .scalar name) (datum : Value × Nat) :
    Spares name Stop.IsFault (storeDatum t datum) := by
  rcases storeDatum_cases t datum with ⟨v, heq⟩ | heq
  · rw [heq]
    exact (spares_assign ht v).ofEval.bind fun _ => .pure true
  · rw [heq]
    exact .fail _

theorem keeps_rest_storeDatum {ts : List Token} (t : Target) (datum : Value × Nat) :
    Keeps (fun m => m.program.rest = ts) (fun _ => True) (storeDatum t datum) := by
  rcases storeDatum_cases t datum with ⟨v, heq⟩ | heq
  · rw [heq]
    exact (keeps_ofEval (B := fun _ => True) (keeps_assign (fun _ _ _ hm => hm) t v)).bind
      fun _ => .pure true
  · rw [heq]
    exact .throw trivial

/-- Behind the target, a `READ` does not move along the line. -/
theorem keeps_rest_nextDatum {ts : List Token} :
    Keeps (fun m => m.program.rest = ts) (fun _ => True)
      (ofEval (onProgram Program.nextDatum)) := by
  intro m hm
  refine concludes_ofEval (concludes_onProgram ?_)
  rw [Program.nextDatum]
  split
  · exact hm
  · exact ⟨hm, trivial⟩

/-! ### Statements -/

variable {w : Written} {more : List Token}

theorem Written.ne_of_denotes {t : Target} (hw : w ≠ .scalar name) (h : w.Denotes t) :
    t ≠ .scalar name := by
  rintro rfl
  cases w with
  | scalar other =>
    cases h
    exact hw rfl
  | element other args =>
    obtain ⟨index, h⟩ := h
    cases h

/-- A `READ` of another target goes to what comes behind the target. -/
theorem concludes_readItem (hw : w.Closed) (hne : w ≠ .scalar name) (hm : m.Active o)
    (hrest : m.program.rest = w.tokens ++ more) (hmore : more.head? ≠ some (.mark .lparen)) :
    Concludes (fun again m' => m.Steady name m' ∧ m'.program.rest = more ∧ again = true)
      (fun e _ => e.IsFault) (readItem m) := by
  rw [readItem_eq]
  refine (concludes_ofEval (concludes_target hw hm hrest hmore)).bind ?_
  rintro t m₁ ⟨⟨htrod, hbehind⟩, hdenotes⟩
  have ht := Written.ne_of_denotes hne hdenotes
  have hm₁ := hm.walked htrod.toWalked
  have hsteady : Spares name Stop.IsFault (do
      storeDatum t (← ofEval (onProgram Program.nextDatum))) :=
    spares_nextDatum.ofEval.bind fun datum => spares_storeDatum ht datum
  have hrest' : Keeps (fun m => m.program.rest = more) (fun _ => True) (do
      storeDatum t (← ofEval (onProgram Program.nextDatum))) :=
    keeps_rest_nextDatum.bind fun datum => keeps_rest_storeDatum t datum
  have hagain : Concludes (fun again _ => again = true) (fun _ _ => True) ((do
      storeDatum t (← ofEval (onProgram Program.nextDatum)) : Exec Bool) m₁) := by
    rw [bind_apply]
    split
    · next datum m₂ _ =>
      rcases storeDatum_cases t datum with ⟨v, heq⟩ | heq
      · rw [heq, bind_apply]
        split <;> trivial
      · rw [heq]
        trivial
    · trivial
  refine (((hsteady o m₁ hm₁).and (hrest' m₁ hbehind)).and hagain).mono ?_ fun _ _ h => h.1.1
  rintro again m' ⟨⟨hs, hr⟩, ha⟩
  exact ⟨(Steady.of_trod htrod).trans hs, hr, ha⟩

/-- What comes behind the first target of a list is no parenthesis. -/
theorem Written.head?_list {ws : List Written} (hmore : ∀ t ∈ more.head?, t.endsStatement = true) :
    ((ws.flatMap fun v => .mark .comma :: v.tokens) ++ more).head? ≠ some (.mark .lparen) := by
  cases ws with
  | nil =>
    intro hhead
    cases hmore _ hhead
  | cons v vs => simp

/-- A `READ` of other targets leaves the variable alone. -/
theorem concludes_readItems {ws : List Written} (hclosed : ∀ v ∈ w :: ws, v.Closed)
    (hne : ∀ v ∈ w :: ws, v ≠ .scalar name) (hm : m.Active o)
    (hrest : m.program.rest = Written.list w ws ++ more)
    (hmore : ∀ t ∈ more.head?, t.endsStatement = true) (k : Nat) :
    Concludes (fun _ m' => m.Steady name m') (fun e _ => e.IsFault) (eachItem readItem k m) := by
  rw [Written.list, List.append_assoc] at hrest
  induction k generalizing w ws m with
  | zero =>
    refine (concludes_readItem (hclosed w List.mem_cons_self) (hne w List.mem_cons_self) hm hrest
      (Written.head?_list hmore)).bind fun _ m' h => h.1
  | succ k ih =>
    rw [eachItem]
    refine (concludes_readItem (hclosed w List.mem_cons_self) (hne w List.mem_cons_self) hm hrest
      (Written.head?_list hmore)).bind ?_
    rintro again m₁ ⟨hsteady, hbehind, rfl⟩
    rw [if_pos rfl, bind_apply, accept_apply]
    cases ws with
    | nil =>
      have hcomma : m₁.program.peekKind? ≠ some (.mark .comma) := by
        intro hkind
        have hpeek := Program.peek?_of_peekKind?_mark hkind
        rw [Program.peek?_eq_head?, hbehind] at hpeek
        cases hmore _ hpeek
      rw [if_neg hcomma]
      exact hsteady
    | cons v vs =>
      have hcons : m₁.program.rest = .mark .comma ::
          (v.tokens ++ ((vs.flatMap fun v => .mark .comma :: v.tokens) ++ more)) := by
        simpa using hbehind
      have hcomma : m₁.program.peekKind? = some (.mark .comma) := by
        rw [Program.peekKind?, Program.peek?_of_rest hcons]
        rfl
      have hpast : m₁.Steady name m₁.past := .of_trod (.past hcons rfl)
      rw [if_pos hcomma]
      have hnext := ih (w := v) (fun u hu => hclosed u (List.mem_cons_of_mem w hu))
        (fun u hu => hne u (List.mem_cons_of_mem w hu)) (hpast.active (hsteady.active hm))
        (rest_past hcons)
      exact hnext.mono (fun _ _ h => (hsteady.trans hpast).trans h) fun _ _ he => he

/-- An assignment to another target leaves the variable alone. -/
theorem concludes_letStatement (hne : w ≠ .scalar name) (hm : m.Active o)
    (hwritten : ∃ ts, m.program.rest = w.tokens ++ .mark .equal :: ts) :
    Concludes (fun _ m' => m.Steady name m') (fun e _ => e.IsFault) (letStatement m) := by
  obtain ⟨ts, hrest⟩ := hwritten
  have htarget := (treads_target o m hm).and (concludes_denotes hrest nofun)
  refine Leads.after (R := fun _ => Steady name) (E := fun _ (e : Stop) _ => e.IsFault)
    (Q := fun t : Target => t ≠ .scalar name) hm ?_ fun t ht => ?_
  · exact concludes_ofEval (htarget.mono
      (fun _ _ h => ⟨.of_trod h.1, Written.ne_of_denotes hne h.2⟩) fun _ _ _ => trivial)
  · exact (Spares.tread (treads_expect rfl)).bind fun _ =>
      (Spares.tread treads_expression).bind fun v => (spares_assign ht v).ofEval

theorem spares_printStatement : Spares name Stop.IsFault printStatement := by
  refine .get_bind fun _ => (Spares.of_treads (readRules_treads.printItems _ _)).bind fun out => ?_
  exact Spares.modify fun _ => ⟨_, _, _, rfl, rfl⟩

/-! ### Up to the next statement -/

/-- `m` is at another place of the line of `n`, and what a loop depends on is as before. -/
structure Passed (name : Name) (n m : Machine) : Prop where
  line : m.program.location.line = n.program.location.line
  current : m.program.current = n.program.current
  loops : m.program.loops = n.program.loops
  value : m.scalars[name]? = n.scalars[name]?
  state : m.state = n.state

/-- Where a statement ends in its middle, there is the first colon. -/
theorem Within.rest_of_ends {ts : List Token} (h : n.Within m)
    (hrest : n.program.rest = ts ++ .mark .colon :: more) (hts : ∀ t ∈ ts, t.endsStatement = false)
    (hend : ∀ t ∈ m.program.rest.head?, t.endsStatement = true) :
    m.program.rest = .mark .colon :: more := by
  obtain ⟨k, hk⟩ := Nat.exists_eq_add_of_le h.forward
  have hleft : m.program.rest = (ts ++ .mark .colon :: more).drop k := by
    rw [Program.rest, h.current, hk, ← List.drop_drop]
    exact congrArg (List.drop k) hrest
  rcases Nat.lt_trichotomy k ts.length with hlt | rfl | hlt
  · exfalso
    have hhead : m.program.rest.head? = some ts[k] := by
      rw [hleft, List.drop_append_of_le_length (Nat.le_of_lt hlt), List.drop_eq_getElem_cons hlt]
      rfl
    have hends := hend _ hhead
    rw [hts _ (List.getElem_mem hlt)] at hends
    cases hends
  · rwa [List.drop_left] at hleft
  · exfalso
    have hcolon : n.program.current[n.program.location.index + ts.length]? =
        some (.mark .colon) := by
      rw [← List.getElem?_drop, show n.program.current.drop n.program.location.index = _ from hrest]
      simp
    have hinner := h.inside _ _ (Nat.le_add_right _ _) (by omega) hcolon
    cases hinner

/-- A statement that stays on its line ends at the first colon. -/
theorem Steady.endStatement {ts : List Token} (h : n.Steady name m)
    (hjumped : n.program.jumped = false) (hrest : n.program.rest = ts ++ .mark .colon :: more)
    (hts : ∀ t ∈ ts, t.endsStatement = false) :
    Concludes (fun _ m' => n.Passed name m' ∧ m'.program.rest = more) (fun e _ => e.IsFault)
      (endStatement m) := by
  have hstay : m.program.jumped = false := by
    rw [h.program]
    exact hjumped
  by_cases hend : ∀ t ∈ m.program.rest.head?, t.endsStatement = true
  · have hcolon := h.toWithin.rest_of_ends hrest hts hend
    rw [endStatement_of_colon hcolon hstay]
    exact ⟨⟨h.line, h.current, h.kept, h.value, h.state⟩, rest_past hcolon⟩
  · refine (concludes_endStatement m).mono (fun _ m' h' => absurd ?_ hend) fun _ _ he => he
    intro t ht
    rw [← Program.peek?_eq_head?] at ht
    rcases h' with ⟨hjump, -⟩ | ⟨-, i, -, ⟨hlast, -⟩ | ⟨hcolon, -⟩ | ⟨helse, -⟩⟩
    · cases hstay.symm.trans hjump
    · cases ht.symm.trans (List.getElem?_eq_none hlast)
    · cases ht.symm.trans hcolon
      rfl
    · cases ht.symm.trans helse
      rfl

/-- Behind its keyword, a statement goes to what comes behind the first colon. Of its tokens only
the keyword may end a statement. -/
theorem concludes_keyword {p : Plain} (hp : p.Proper) {t : Token} {ts : List Token}
    (htokens : p.tokens = t :: ts) (hm : m.Active o) (hjumped : m.program.jumped = false)
    (hrest : m.program.rest = p.tokens ++ .mark .colon :: more) {x : Exec Unit} {k : Nat}
    (hstatement : statement (k + 1) m = x m.past)
    (hx : m.past.Active o →
      Concludes (fun _ m' => m.past.Steady name m') (fun e _ => e.IsFault) (x m.past)) :
    Concludes (fun _ m' => m.Passed name m' ∧ m'.program.rest = more) (fun e _ => e.IsFault)
      ((statement (k + 1) >>= fun _ => endStatement) m) := by
  have hsingle := hp.single
  rw [htokens] at hsingle
  rw [htokens, List.cons_append] at hrest
  rw [bind_apply, hstatement, ← bind_apply]
  refine (hx (hm.walked (.skip (Program.peek?_of_rest hrest)))).bind fun _ m' h => ?_
  refine (h.endStatement hjumped (rest_past hrest)
    fun u hu => hsingle u (List.mem_cons_of_mem t hu)).mono (fun _ m'' h' => ⟨?_, h'.2⟩)
    fun _ _ he => he
  exact ⟨h'.1.line, h'.1.current, h'.1.loops, h'.1.value, h'.1.state⟩

/-- A statement that does not assign the variable goes to what comes behind it, with the same loops
and the same value of the variable. -/
theorem concludes_plain {p : Plain} (hp : p.Proper) (havoids : p.Avoids name) (hm : m.Active o)
    (hjumped : m.program.jumped = false)
    (hrest : m.program.rest = p.tokens ++ .mark .colon :: more) (k : Nat) :
    Concludes (fun _ m' => m.Passed name m' ∧ m'.program.rest = more) (fun e _ => e.IsFault)
      ((statement (k + 1) >>= fun _ => endStatement) m) := by
  have hpeek : ∀ {t ts}, p.tokens = t :: ts → m.program.peek? = some t := by
    intro t ts htokens
    rw [htokens] at hrest
    exact Program.peek?_of_rest hrest
  cases p with
  | assign keyword w value =>
    have hne : w ≠ .scalar name := havoids w List.mem_cons_self
    cases keyword with
    | true =>
      have hlet : statement (k + 1) m = letStatement m.past := by
        rw [statement, get_bind_apply, hpeek rfl]
        rfl
      refine concludes_keyword hp rfl hm hjumped hrest hlet fun hm' => ?_
      refine concludes_letStatement hne hm' ⟨value ++ .mark .colon :: more, ?_⟩
      simpa [Plain.tokens] using rest_past hrest
    | false =>
      have hname : m.program.peek? = some (.symbol w.name) := by
        cases w with
        | scalar => exact hpeek rfl
        | element => exact hpeek rfl
      rw [bind_apply, statement, get_bind_apply, hname, ← bind_apply letStatement]
      refine (concludes_letStatement hne hm ⟨value ++ .mark .colon :: more, ?_⟩).bind ?_
      · simpa [Plain.tokens] using hrest
      · exact fun _ m' h => h.endStatement hjumped hrest hp.single
  | print keyword items =>
    cases keyword with
    | true =>
      have hprint : statement (k + 1) m = printStatement m.past := by
        rw [statement, get_bind_apply, hpeek rfl]
        rfl
      exact concludes_keyword hp rfl hm hjumped hrest hprint fun hm' =>
        spares_printStatement o _ hm'
    | false =>
      have hprint : statement (k + 1) m = printStatement m.past := by
        rw [statement, get_bind_apply, hpeek rfl]
        rfl
      exact concludes_keyword hp rfl hm hjumped hrest hprint fun hm' =>
        spares_printStatement o _ hm'
  | read w ws =>
    have hread : statement (k + 1) m = items readItem m.past := by
      rw [statement, get_bind_apply, hpeek rfl]
      rfl
    refine concludes_keyword hp rfl hm hjumped hrest hread fun hm' => ?_
    have hlist : m.past.program.rest = Written.list w ws ++ .mark .colon :: more := rest_past hrest
    exact concludes_readItems hp.closed havoids hm' hlist (by rintro t ⟨⟩; rfl) _
  | restore =>
    have hrestore : statement (k + 1) m = modifyProgram Program.restore m.past := by
      rw [statement, get_bind_apply, hpeek rfl]
      rfl
    exact concludes_keyword hp rfl hm hjumped hrest hrestore fun hm' =>
      spares_restore o _ hm'

end Machine

end LineBasic
