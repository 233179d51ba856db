import LineBasic.Proofs.Machine.Leave
import LineBasic.Proofs.Machine.StepStates

/-!
# What holds throughout a step

In the middle of a step the functions and the stored lines are those from its start, and the
location is on its line. Inside an expression this is shown by following its parts, since each part
must leave room for those behind it. A statement is followed from one of its parts to the next: what
lies in between moves along the line, stores a value or drops loops that are over.

## Main definitions

* `Machine.AtPhrase` — a machine at a phrase in the middle of a step
* `Machine.Midway` — a machine in the middle of a step, but not inside a function

## Main results

* `Machine.Passes.midStep` — what holds in the middle of an expression
* `Machine.ComesBy.midStep` — what holds in the middle of a step
-/

namespace LineBasic

/-- The number of tokens that a phrase takes. -/
def Phrase.width : Phrase → Nat
  | .value e => e.width
  | .values args => args.width
  | .bindings _ _ args _ => args.width

namespace Machine

variable {ε α : Type} {o : Options} {m n n₁ s : Machine} {depth k l : Nat}

/-! ### In the middle of an expression -/

/-- The evaluation of a phrase moves past its tokens. -/
theorem walks_evalPhrase (F : Std.ExtTreeMap Name Function) (depth : Nat) (phrase : Phrase) :
    Walks F depth phrase.width (evalPhrase depth phrase) := by
  have hbody : Returns F depth (bodyAt depth) := returns_bodyAt depth
  cases phrase with
  | value e => exact Walks.bind (l := 0) (Walks.expr hbody e) fun _ => Walks.pure ()
  | values args => exact Walks.bind (l := 0) (Walks.arguments hbody args) fun _ => Walks.pure ()
  | bindings p ps args bound =>
    exact Walks.bind (l := 0) (Walks.bound hbody args p ps bound) fun _ => Walks.pure ()

/-- In the middle of a step of `m`, the machine `n` is at a phrase of `width` tokens, and `depth`
calls may nest in it. -/
structure AtPhrase (m : Machine) (depth width : Nat) (n : Machine) : Prop where
  midStep : m.MidStep n
  callsLeft : n.callsLeft = depth
  room : n.program.location.index + width ≤ n.program.current.length

namespace AtPhrase

theorem narrow (h : m.AtPhrase depth k n) (hle : l ≤ k) : m.AtPhrase depth l n :=
  ⟨h.midStep, h.callsLeft, Nat.le_trans (Nat.add_le_add_left hle _) h.room⟩

theorem fit (h : m.AtPhrase depth k n) (hm : m.Sound o) : n.Fit n.functions depth := by
  have hfit := h.midStep.fit hm
  rwa [h.callsLeft] at hfit

/-- Behind a part of a phrase, its other parts are still to come. -/
theorem next (h : m.AtPhrase depth (k + l) n) (hm : m.Sound o) {x : Eval α}
    (hx : Walks n.functions depth k x) {a : α} (hend : x n = .ok a n₁) :
    m.AtPhrase depth l n₁ := by
  have hroom := h.room
  have hwalks := hx n (h.fit hm) (by omega)
  rw [hend] at hwalks
  obtain ⟨hwalked, hindex⟩ := hwalks
  refine ⟨h.midStep.walked hwalked, (hwalked.fit (h.fit hm)).callsLeft, ?_⟩
  rw [hwalked.current, hindex]
  omega

theorem past (h : m.AtPhrase depth (1 + l) n) (hm : m.Sound o) : m.AtPhrase depth l n.past :=
  h.next hm (Walks.skip 1) (a := ()) rfl

/-- Behind the name of a call and its parenthesis. -/
theorem pastCall (h : m.AtPhrase depth (2 + l) n) (hm : m.Sound o) :
    m.AtPhrase depth l n.past.past :=
  ((h.narrow (Nat.le_of_eq (Nat.add_assoc 1 1 l).symm)).past hm).past hm

/-- Inside a function, the machine is at the expression that is its body. -/
theorem inside (h : m.AtPhrase (depth + 1) k n) (hm : m.Sound o) {name : Name} {f : Function}
    (hf : m.functions[name]? = some f) {params : Bindings}
    (hcall : onProgram (Program.pushFunction params f.body) n = .ok () n₁) :
    m.AtPhrase depth (Expr.read n₁.program.rest).width n₁ := by
  obtain ⟨tokens, htokens, hindex⟩ := h.midStep.body hm hf
  rw [pushFunction_inside h.callsLeft params htokens hindex] at hcall
  cases hcall
  exact ⟨⟨h.midStep.functions, h.midStep.lines, htokens, hindex⟩,
    callsLeft_inside h.callsLeft _ _ _, Program.width_read_le hindex⟩

end AtPhrase

/-- In the middle of an expression the machine is in the middle of the step, by following the parts
of the expression. -/
theorem Passes.midStep {phrase : Phrase} (h : Passes depth phrase n s) (hm : m.Sound o)
    (hn : m.AtPhrase depth phrase.width n) : m.MidStep s := by
  induction h with
  | start => exact hn.midStep
  | done hend =>
    exact ((hn.narrow (Nat.le_refl _)).next (l := 0) hm (walks_evalPhrase _ _ _) hend).midStep
  | failed hend =>
    have hwalks := walks_evalPhrase _ _ _ _ (hn.fit hm) hn.room
    rw [hend] at hwalks
    exact hn.midStep.walked hwalks.1
  | paren close _ ih => exact ih ((hn.past hm).narrow (Nat.le_add_right _ _))
  | operand op _ ih => exact ih (hn.past hm)
  | left op r _ ih => exact ih (hn.narrow (Nat.le_add_right _ _))
  | right op hleft _ ih =>
    exact ih ((hn.next hm (Walks.expr (returns_bodyAt _) _) hleft).past hm)
  | arguments _ _ ih => exact ih (hn.pastCall hm)
  | parameters _ _ _ ih => exact ih (hn.pastCall hm)
  -- the body of a function is read at another place, in a call of its own
  | body _ hfunction hparams hcall _ ih =>
    have hbound := ((hn.pastCall hm).narrow (Nat.le_refl _)).next (l := 0) hm
      (Walks.bound (returns_bodyAt _) _ _ _ _) hparams
    rw [hn.midStep.functions] at hfunction
    exact ih (hbound.inside hm hfunction hcall)
  | last close _ ih => exact ih (hn.narrow (Nat.le_add_right _ _))
  | first rest _ ih => exact ih (hn.narrow (Nat.le_add_right _ _))
  | others hfirst _ ih =>
    exact ih ((hn.next hm (Walks.expr (returns_bodyAt _) _) hfirst).past hm)
  | lastBound _ _ close _ _ ih => exact ih (hn.narrow (Nat.le_add_right _ _))
  | firstBound _ _ rest _ _ ih => exact ih (hn.narrow (Nat.le_add_right _ _))
  | othersBound hfirst _ _ ih =>
    exact ih ((hn.next hm (Walks.expr (returns_bodyAt _) _) hfirst).past hm)

/-! ### In the middle of a statement -/

theorem Stays.within {x : EStateM ε Machine α} {B : ε → Prop} (hx : Stays B x) (hn : n.Active o)
    {a : α} (hend : x n = .ok a n₁) : n.Within n₁ :=
  (hx o n hn).of_ok hend

/-- Another variable of a `NEXT` comes only after a loop that is over. -/
theorem within_of_nextItem (hn : n.past.Active o) (hwithin : n.past.Within n₁)
    (hitem : nextItem n₁ = .ok true s) : n.past.Within s := by
  obtain ⟨name, n₂, hname, hround⟩ := bind_eq_ok hitem
  obtain ⟨_, n₃, hloop, hagain⟩ := bind_eq_ok hround
  have hname := hwithin.trans ((Stays.tread treads_nextName).within (hwithin.active hn) hname)
  rw [get_bind_apply] at hagain
  rcases (concludes_nextLoop hn hname name).of_ok hloop with hover | ⟨-, hjumped⟩
  · injection hagain with _ hsame
    rwa [← hsame]
  · rw [hjumped] at hagain
    cases hagain

/-- In the middle of a step of `m`, the machine `n` executes a statement, and no function has been
called. -/
structure Midway (o : Options) (m n : Machine) : Prop where
  active : n.Active o
  functions : n.functions = m.functions
  lines : n.program.lines = m.program.lines

namespace Midway

theorem midStep (h : m.Midway o n) : m.MidStep n :=
  ⟨h.functions, h.lines, h.active.program.synced, h.active.program.index⟩

theorem within (h : m.Midway o n) (hwithin : n.Within n₁) : m.Midway o n₁ where
  active := hwithin.active h.active
  functions := hwithin.functions.trans h.functions
  lines := by
    rw [hwithin.program]
    exact h.lines

theorem walked (h : m.Midway o n) (hwalked : n.Walked n₁) : m.Midway o n₁ where
  active := h.active.walked hwalked
  functions := hwalked.functions.trans h.functions
  lines := by
    rw [hwalked.program]
    exact h.lines

/-- Behind a part of a statement that does not leave the statement. -/
theorem stays (h : m.Midway o n) {B : ε → Prop} {x : EStateM ε Machine α} (hx : Stays B x) {a : α}
    (hend : x n = .ok a n₁) : m.Midway o n₁ :=
  h.within (hx.within h.active hend)

theorem past (h : m.Midway o n) {t : Token} (hpeek : n.program.peek? = some t) :
    m.Midway o n.past :=
  h.walked (.skip hpeek)

theorem inExpression (h : m.Midway o n) (hm : m.Sound o) (hs : n.InExpression s) : m.MidStep s :=
  Passes.midStep hs hm ⟨h.midStep, rfl, Program.width_read_le h.active.program.index⟩

theorem inSubscripts (h : m.Midway o n) (hm : m.Sound o) (hs : n.InSubscripts s) : m.MidStep s :=
  Passes.midStep hs hm ⟨h.midStep, rfl, Program.width_arguments_le h.active.program.index⟩

theorem after (h : m.Midway o n) {x : Exec α} {P : Machine → Machine → Prop} {B : Stop → Prop}
    (hx : Stays B x) (hP : ∀ {n}, m.Midway o n → P n s → m.MidStep s) (hs : After x P n s) :
    m.MidStep s := by
  obtain ⟨a, n', hend, hs⟩ := hs
  exact hP (h.stays hx hend) hs

theorem inSubscripted (h : m.Midway o n) (hm : m.Sound o) (hs : n.InSubscripted s) :
    m.MidStep s :=
  h.after ((Stays.tread treads_nextName).bind fun _ => Stays.tread (treads_expect rfl))
    (fun h => h.inSubscripts hm) hs

/-- The words between the numbers of a `FOR` stand inside it. -/
theorem inNumbers (h : m.Midway o n) (hm : m.Sound o) {ks : List Token.Kind}
    (hks : ∀ k ∈ ks, k.isInner = true) (hs : InNumbers ks n s) : m.MidStep s := by
  induction ks generalizing n with
  | nil => exact h.inExpression hm hs
  | cons k ks ih =>
    rcases hs with hs | hs
    · exact h.inExpression hm hs
    · refine h.after ((Stays.tread treads_numberExpression).bind fun _ =>
        Stays.tread (treads_expect (hks k List.mem_cons_self))) (fun h => ih h fun k' hk' => ?_) hs
      exact hks k' (List.mem_cons_of_mem _ hk')

theorem inAssignment (h : m.Midway o n) (hm : m.Sound o) (hs : n.InAssignment s) :
    m.MidStep s := by
  rcases hs with hs | hs
  · exact h.inSubscripted hm hs
  · exact h.after ((Stays.tread treads_target).bind fun _ => Stays.tread (treads_expect rfl))
      (fun h => h.inExpression hm) hs

theorem inPrint (h : m.Midway o n) (hm : m.Sound o) (hs : n.InPrint s) : m.MidStep s := by
  induction hs with
  | value _ _ hs => exact h.inExpression hm hs
  | separator hseparator _ ih =>
    rcases hseparator with hpeek | hpeek
    · exact ih (h.past hpeek)
    · exact ih (h.past hpeek)
  | later _ _ hitem _ ih => exact ih (h.stays (.of_treads treads_expression) hitem)

theorem inItems (h : m.Midway o n) {item : Exec Bool} {P : Machine → Machine → Prop}
    (hitem : ∀ {n n₁}, m.Midway o n → item n = .ok true n₁ → m.Midway o n₁)
    (hP : ∀ {n s}, m.Midway o n → P n s → m.MidStep s) (hs : InItems item P n s) :
    m.MidStep s := by
  induction hs with
  | start => exact h.midStep
  | here hs => exact hP h hs
  | later hend hcomma _ ih =>
    exact ih ((hitem h hend).stays (.tread (treads_accept rfl)) hcomma)

/-- Another variable of a `NEXT` comes only after a loop that is over, and then the machine is still
in the middle of the `NEXT`. -/
theorem inNext (h : m.Midway o n.past) (hwithin : n.past.Within n₁)
    (hs : InItems nextItem (fun _ _ => False) n₁ s) : m.MidStep s := by
  induction hs with
  | start => exact (h.within hwithin).midStep
  | here hs => exact hs.elim
  | later hitem hcomma _ ih =>
    have hover := within_of_nextItem h.active hwithin hitem
    have hcomma := (Stays.tread (treads_accept rfl)).within (hover.active h.active) hcomma
    exact ih (hover.trans hcomma)

end Midway

theorem stays_loopHead : Stays Stop.IsFault loopHead := by
  refine (Stays.tread treads_nextName).bind fun name => ?_
  dsimp only
  split
  · exact Leads.bind (.fail _) fun _ => Stays.tread (treads_expect rfl)
  · exact Stays.tread (treads_expect rfl)

/-- In the middle of a statement the machine is in the middle of the step, by following the
statement into the branches of an `IF`. -/
theorem Amid.midStep (h : n.Amid s) (hm : m.Sound o) (hn : m.Midway o n) : m.MidStep s := by
  induction h with
  | start => exact hn.midStep
  | condition hkeyword hs => exact (hn.past hkeyword).inExpression hm hs
  | branch hkeyword hchoice _ ih =>
    exact ih (hn.walked (LeadsTo.choice_spec hn.active hkeyword hchoice).1)
  | assignment _ hs => exact hn.inAssignment hm hs
  | letKeyword hkeyword hs => exact (hn.past hkeyword).inAssignment hm hs
  | dim hkeyword _ hs =>
    exact (hn.past hkeyword).inItems (fun h => h.stays stays_dimItem)
      (fun h => h.inSubscripted hm) hs
  | print hkeyword hs =>
    rcases hkeyword with hkeyword | hkeyword
    · exact (hn.past hkeyword).inPrint hm hs
    · exact (hn.past hkeyword).inPrint hm hs
  | input hkeyword hs =>
    exact (hn.past hkeyword).after (.of_treads readRules_treads.promptText)
      (fun h => h.inSubscripted hm) hs
  | jump hkeyword hs =>
    rcases hkeyword with hkeyword | hkeyword
    · exact (hn.past hkeyword).inExpression hm hs
    · exact (hn.past hkeyword).inExpression hm hs
  | loop hkeyword hs =>
    exact (hn.past hkeyword).after stays_loopHead (fun h => h.inNumbers hm (by decide)) hs
  | next hkeyword _ hs =>
    exact (hn.past hkeyword).inNext (.refl (hn.past hkeyword).active.program.index) hs
  | read hkeyword hs =>
    exact (hn.past hkeyword).inItems (fun h => h.stays stays_readItem)
      (fun h => h.inSubscripted hm) hs

@[simp] theorem announce_functions (m : Machine) : m.announce.functions = m.functions := by
  rw [announce]
  split <;> rfl

/-- The step has gone to the statement that it executes. -/
theorem Sound.midway_upcoming? (hm : m.Sound o) (hrunning : m.state = .running)
    (hnext : m.upcoming? = some n) : m.Midway o n := by
  obtain ⟨n', hn', rfl⟩ := Option.map_eq_some_iff.mp hnext
  have hactive := active_atStatement ((hm.active hrunning).toStatement? hn').announce
  have hlines : n'.announce.program.lines = n'.program.lines := by rw [announce_program]
  rcases toStatement?_eq_some hn' with ⟨rfl, -⟩ | ⟨line, tokens, rfl⟩
  · exact ⟨hactive, announce_functions _, hlines⟩
  · exact ⟨hactive, announce_functions _, hlines⟩

/-- In the middle of a step, the functions and the stored lines are those from its start, and the
location is on its line. -/
theorem ComesBy.midStep (h : m.ComesBy s) (hm : m.Sound o) (hrunning : m.state = .running) :
    m.MidStep s := by
  cases h with
  | now => exact ⟨rfl, rfl, hm.synced (.inl hrunning), hm.program.index⟩
  | amid _ hnext hs => exact hs.midStep hm (hm.midway_upcoming? hrunning hnext)

/-- The next step of a machine that is at a `PRINT` evaluates the expression behind it. -/
theorem comesBy_print (hrunning : m.state = .running)
    (hkeyword : m.program.peek? = some (.keyword .PRINT))
    (hend : m.announce.atStatement.past.program.atStatementEnd = false)
    (hvalue : ¬m.announce.atStatement.past.AtSeparator)
    (hprint : m.announce.atStatement.program.peek? = some (.keyword .PRINT)) :
    m.ComesBy m.announce.atStatement.past := by
  have hnext : m.upcoming? = some m.announce.atStatement := by
    rw [upcoming?, toStatement?_eq hkeyword]
    rfl
  exact .amid hrunning hnext (.print (.inl hprint) (.value hend hvalue (.start _ _ _)))

end Machine

end LineBasic
