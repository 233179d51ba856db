import LineBasic.Proofs.Machine.RewordItem

/-!
# Lists, and a statement for each item

A `READ`, `DIM` or `NEXT` with a list does what the same word does with one item after the other:
one step executes the whole list, and a line with a statement for each item takes a step for each.
An item may use what the items in front of it have done, a loop that goes round again ends the list,
and so does an item that fails. In each of these cases the one step and the several steps end alike.

The induction is on the list. As long as an item succeeds and is followed by another one, the first
machine is still in the middle of its step, while the second one has ended a step and is in front of
the next statement; behind the comma on one line and the word on the other they are abreast again.

## Main definitions

* `ListWord` — the words that are followed by a list
* `ItemList` — a statement that consists of a word and a list
* `ItemList.rewording` — a line on which it is written with a statement for each item
* `Machine.Arrives` — one step, and several steps to the same end
* `Machine.AtList` — a machine whose next step executes a list

## Main results

* `Machine.together_item` — one item on two machines
* `Machine.exists_arrives` — one step with a list, and a step for each item
* `Machine.atList_startImmediate` — a list that is entered as a line
* `Machine.Reachable.step_list` — what the two runs have in common
-/

namespace LineBasic

/-- The words that are followed by a list. -/
inductive ListWord where
  | read
  | dim
  | next
deriving DecidableEq

namespace ListWord

/-- The word. -/
def keyword : ListWord → Keyword
  | .read => .READ
  | .dim => .DIM
  | .next => .NEXT

/-- What is done with one item. -/
def item : ListWord → Machine.Exec Bool
  | .read => Machine.readItem
  | .dim => Machine.dimItem
  | .next => Machine.nextItem

/-- The tokens of further items, each with a comma in front of it. -/
def commas (ws : List Written) : List Token :=
  ws.flatMap fun w => .mark .comma :: w.tokens

/-- The tokens of further items, each in a statement of its own. -/
def colons (word : ListWord) (ws : List Written) : List Token :=
  ws.flatMap fun w => .mark .colon :: .keyword word.keyword :: w.tokens

theorem commas_cons (w : Written) (ws : List Written) :
    commas (w :: ws) = .mark .comma :: (w.tokens ++ commas ws) :=
  rfl

theorem colons_cons (word : ListWord) (w : Written) (ws : List Written) :
    word.colons (w :: ws) = .mark .colon :: .keyword word.keyword :: (w.tokens ++ word.colons ws) :=
  rfl

end ListWord

namespace Written

/-- The tokens behind the name of a target. -/
def tail : Written → List Token
  | .scalar _ => []
  | .element _ args => .mark .lparen :: args

theorem tokens_eq (w : Written) : w.tokens = .symbol w.name :: w.tail := by
  cases w <;> rfl

theorem tokens_append (w : Written) (more : List Token) :
    w.tokens ++ more = .symbol w.name :: (w.tail ++ more) := by
  rw [w.tokens_eq, List.cons_append]

/-- The subscripts of a target stand inside a statement. -/
theorem isInner_of_closed {w : Written} (h : w.Closed) : ∀ t ∈ w.tail, t.isInner = true := by
  cases w with
  | scalar name => simp [tail]
  | element name args =>
    have hinner := Arguments.isInner_of_whole h.1
    have hall : args.take (Arguments.read args).phrase.width = args := by
      have hrest := h.2
      rw [(Arguments.behind_read args).eq_drop, List.drop_eq_nil_iff] at hrest
      exact List.take_of_length_le hrest
    rw [hall] at hinner
    exact List.forall_mem_cons.mpr ⟨rfl, hinner⟩

end Written

/-- A statement that consists of a word and a list. The items of a `NEXT` are variables. -/
structure ItemList where
  word : ListWord
  first : Written
  others : List Written
  closed : ∀ w ∈ first :: others, w.Closed
  names : word = .next → ∀ w ∈ first :: others, w = .scalar w.name

namespace ItemList

/-- The statement. -/
def tokens (l : ItemList) : List Token :=
  .keyword l.word.keyword :: Written.list l.first l.others

/-- A statement for each item. -/
def apart (l : ItemList) : List Token :=
  .keyword l.word.keyword :: (l.first.tokens ++ l.word.colons l.others)

theorem isInner_commas {ws : List Written} (h : ∀ w ∈ ws, w.Closed) :
    ∀ t ∈ ListWord.commas ws, t.isInner = true := by
  intro t ht
  obtain ⟨w, hw, ht⟩ := List.mem_flatMap.mp ht
  rw [w.tokens_eq, List.mem_cons, List.mem_cons] at ht
  rcases ht with rfl | rfl | ht
  · rfl
  · rfl
  · exact Written.isInner_of_closed (h w hw) t ht

theorem data_notMem_colons (word : ListWord) {ws : List Written} (h : ∀ w ∈ ws, w.Closed)
    (values : List Value) : Token.data values ∉ word.colons ws := by
  intro ht
  obtain ⟨w, hw, ht⟩ := List.mem_flatMap.mp ht
  rw [w.tokens_eq] at ht
  have htail : Token.data values ∈ w.tail := by simpa using ht
  cases Written.isInner_of_closed (h w hw) _ htail

theorem length_commas_le (word : ListWord) (ws : List Written) :
    (ListWord.commas ws).length ≤ (word.colons ws).length := by
  induction ws with
  | nil => exact Nat.le_refl 0
  | cons w ws ih =>
    simp only [ListWord.commas, ListWord.colons, List.flatMap_cons, List.length_append,
      List.length_cons] at ih ⊢
    omega

/-- A line on which the statement stands between `before` and `after` is written with a statement
for each item. -/
def rewording (l : ItemList) (line : Line) (before after : List Token) : Rewording where
  line := line
  before := before
  word := l.word.keyword
  name := l.first.name
  old := l.first.tail ++ ListWord.commas l.others
  new := l.first.tail ++ l.word.colons l.others
  after := after
  starts := by cases l.word <;> rfl
  defines := by cases l.word <;> simp [ListWord.keyword]
  inside := by
    have hfirst := Written.isInner_of_closed (l.closed _ List.mem_cons_self)
    have hothers := isInner_commas fun w hw => l.closed w (List.mem_cons_of_mem _ hw)
    exact fun t ht => (List.mem_append.mp ht).elim (hfirst t) (hothers t)
  length_le := by
    simpa using length_commas_le l.word l.others
  noData := by
    intro values hmem
    rcases List.mem_append.mp hmem with hfirst | hothers
    · cases Written.isInner_of_closed (l.closed _ List.mem_cons_self) _ hfirst
    · exact data_notMem_colons l.word (fun w hw => l.closed w (List.mem_cons_of_mem _ hw)) values
        hothers

variable (l : ItemList) (line : Line) (before after : List Token)

theorem length_others_le : l.others.length ≤ (ListWord.commas l.others).length := by
  induction l.others with
  | nil => exact Nat.le_refl 0
  | cons w ws ih =>
    simp only [ListWord.commas_cons, List.length_cons, List.length_append]
    omega

theorem oldText_rewording :
    (l.rewording line before after).oldText = before ++ (l.tokens ++ after) := by
  simp [rewording, Rewording.oldText, tokens, Written.list, ListWord.commas, Written.tokens_eq]

theorem newText_rewording :
    (l.rewording line before after).newText = before ++ (l.apart ++ after) := by
  simp [rewording, Rewording.newText, apart, Written.tokens_eq]

end ItemList

namespace Machine

variable {o : Options} {m m' : Machine} {y : Rewording} {s s' t t' : Machine} {w : Written}
  {word : ListWord} {more more' : List Token} {item : Exec Bool}

/-! ### One item -/

/-- One item on two machines that are abreast. -/
theorem together_item (hw : w.Closed) (hname : word = .next → w = .scalar w.name)
    (hs : s.Active o) (h : Abreast y (w.tokens ++ more) (w.tokens ++ more') s t)
    (hmore : more.head? ≠ some (.mark .lparen)) (hmore' : more'.head? ≠ some (.mark .lparen))
    (hempty : more = [] ↔ more' = []) :
    Together (Onward y more more') (Rewords y) (word.item s) (word.item t) := by
  cases word with
  | read => exact together_readItem hw hs h hmore hmore'
  | dim => exact together_dimItem hw hs h hmore hmore' hempty
  | next =>
    rw [hname rfl] at h
    exact together_nextItem h

/-- Evaluation fails with a fault. -/
theorem concludes_isFault {α : Type} (x : Eval α) (m : Machine) :
    Concludes (fun _ _ => True) (fun e _ => e.IsFault) (ofEval x m) := by
  refine concludes_ofEval ?_
  cases x m with
  | ok a m' => trivial
  | error c m' => trivial

/-- An item does not end by a signal. -/
theorem concludes_item (word : ListWord) (hs : s.Active o) :
    Concludes (fun _ s' => s'.Active o) (fun e _ => e.IsFault) (word.item s) := by
  have hfault : Concludes (fun _ _ => True) (fun e _ => e.IsFault) (word.item s) := by
    cases word with
    | read => exact (stays_readItem o s hs).mono (fun _ _ _ => trivial) fun _ _ he => he
    | dim => exact (stays_dimItem o s hs).mono (fun _ _ _ => trivial) fun _ _ he => he
    | next =>
      refine (concludes_isFault _ s).bind fun name s₁ _ => ?_
      refine Concludes.bind (Q := fun _ _ => True) ?_ fun _ _ _ => trivial
      rw [nextLoop, get_bind_apply]
      refine (concludes_isFault _ s₁).bind fun value s₂ _ => ?_
      exact (concludes_isFault _ s₂).bind fun x s₃ _ => concludes_isFault _ s₃
  have hsafe : Concludes (fun _ s' => s'.Active o) (fun _ _ => True) (word.item s) := by
    cases word with
    | read => exact (safe_readItem s hs).mono (fun _ _ h => h) fun _ _ _ => trivial
    | dim => exact (safe_dimItem s hs).mono (fun _ _ h => h) fun _ _ _ => trivial
    | next => exact (safe_nextItem s hs).mono (fun _ _ h => h) fun _ _ _ => trivial
  exact (hsafe.and hfault).mono (fun _ _ h => h.1) fun _ _ h => h.2

/-! ### The items of a list -/

/-- The list ends where an item says so. -/
theorem eachItem_of_false (h : item s = .ok false s') (n : Nat) :
    eachItem item n s = .ok () s' := by
  cases n with
  | zero =>
    change (item >>= fun _ => pure ()) s = _
    rw [bind_apply, h]
    rfl
  | succ n =>
    rw [eachItem, bind_apply, h]
    rfl

/-- The list ends where no comma follows. -/
theorem eachItem_of_last (h : item s = .ok true s')
    (hcomma : s'.program.rest.head? ≠ some (.mark .comma)) (n : Nat) :
    eachItem item n s = .ok () s' := by
  cases n with
  | zero =>
    change (item >>= fun _ => pure ()) s = _
    rw [bind_apply, h]
    rfl
  | succ n =>
    have hkind : s'.program.peekKind? ≠ some (.mark .comma) := by
      rw [← Program.peek?_eq_head?] at hcomma
      exact mt Program.peek?_of_peekKind?_mark hcomma
    rw [eachItem, bind_apply, h]
    change (accept (.mark .comma) >>= _) s' = _
    rw [bind_apply, accept_apply, if_neg hkind]
    rfl

/-- Behind a comma the list goes on. -/
theorem eachItem_of_comma {ts : List Token} (h : item s = .ok true s')
    (hcomma : s'.program.rest = .mark .comma :: ts) (n : Nat) :
    eachItem item (n + 1) s = eachItem item n s'.past := by
  have hkind : s'.program.peekKind? = some (.mark .comma) := by
    rw [Program.peekKind?, Program.peek?_of_rest hcomma]
    rfl
  rw [eachItem, bind_apply, h]
  change (accept (.mark .comma) >>= _) s' = _
  rw [bind_apply, accept_apply, if_pos hkind]
  rfl

theorem eachItem_of_error {e : Stop} (h : item s = .error e s') (n : Nat) :
    eachItem item n s = .error e s' := by
  cases n with
  | zero =>
    change (item >>= fun _ => pure ()) s = _
    rw [bind_apply, h]
  | succ n => rw [eachItem, bind_apply, h]

/-- A statement with a word and at least one item goes through the items. -/
theorem statement_list {name : Name} {ts : List Token}
    (hrest : m.program.rest = .keyword word.keyword :: .symbol name :: ts) (k : Nat) :
    statement (k + 1) m = eachItem word.item (ts.length + 1) m.past := by
  have hname := rest_past hrest
  have hitems : items word.item m.past = eachItem word.item (ts.length + 1) m.past := by
    rw [items, get_bind_apply, hname, List.length_cons]
  have hend : m.past.program.atStatementEnd = false := by
    rw [Program.atStatementEnd, Program.peek?_of_rest hname]
    rfl
  rw [statement, get_bind_apply, Program.peek?_of_rest hrest, ← hitems]
  cases word with
  | read => rfl
  | dim =>
    change dimStatement m.past = _
    rw [dimStatement, get_bind_apply]
    simp only [hend, Bool.false_eq_true, if_false]
    rfl
  | next =>
    change nextStatement m.past = _
    rw [nextStatement, get_bind_apply]
    simp only [hend, Bool.false_eq_true, if_false]
    rfl

/-! ### Steps -/

/-- What is left of a step when some items of a list are still to come. -/
def finishList (word : ListWord) (n : Nat) (line : Line) (m : Machine) : Option Fault × Machine :=
  endStep line ((eachItem word.item n >>= fun _ => endStatement) m)

theorem finishList_eq {n : Nat} (h : eachItem word.item n s = .ok () s') (line : Line) :
    finishList word n line s = endStep line (endStatement s') := by
  rw [finishList, bind_apply, h]

theorem finishList_of_error {e : Stop} (h : word.item s = .error e s') (n : Nat) (line : Line) :
    finishList word n line s = endStep line (.error e s') := by
  rw [finishList, bind_apply, eachItem_of_error h]

/-- A step of a machine whose next statement consists of the word and a list. -/
theorem step_list_eq {name : Name} {ts : List Token} (hrunning : m.state = .running)
    (hnext : m.upcoming? = some s)
    (hrest : s.program.rest = .keyword word.keyword :: .symbol name :: ts) :
    m.step = finishList word (ts.length + 1) s.program.location.line s.past := by
  obtain ⟨m', hstart, rfl⟩ := Option.map_eq_some_iff.mp hnext
  have hline : m'.program.location.line = m'.announce.atStatement.program.location.line :=
    congrArg (·.location.line) (announce_program m').symm
  have hend : ¬ m'.announce.atStatement.program.atEnd = true := by
    simp [Program.atEnd_of_cons hrest]
  rw [Machine.step_eq hrunning hstart, execute_apply, if_neg hend, hrest, List.length_cons,
    bind_apply, statement_list hrest, hline]
  rfl

/-- A machine at the word, with nothing to skip and nothing to show. -/
theorem upcoming?_of_quiet {u : Token} {ts : List Token} (hquiet : m.tracing = false)
    (hjumped : m.program.jumped = false) (hrest : m.program.rest = u :: ts)
    (hu : u ≠ .mark .colon) :
    m.upcoming? = some (m.record (.statement m.program.location)) := by
  have hpeek := Program.peek?_of_rest hrest
  rw [upcoming?, toStatement?_eq hpeek, Option.map_some, announce_eq hquiet]
  exact congrArg some (atStatement_eq hpeek hu hjumped)

/-- The other machine takes some more steps, of which only the last one fails, if any, to the end of
the one step. -/
def Arrives (y : Rewording) (r : Option Fault × Machine) :
    (more : Nat) → Option Fault × Machine → Prop
  | 0, r' => EndsAlike y r r'
  | more + 1, r' => r'.1 = none ∧ Arrives y r more r'.2.step

theorem Arrives.steps {r : Option Fault × Machine} {k : Nat} (h : Arrives y r k m.step) :
    (∀ i < k, (m.steps i).step.1 = none) ∧ EndsAlike y r (m.steps k).step := by
  induction k generalizing m with
  | zero => exact ⟨fun i hi => absurd hi (Nat.not_lt_zero i), h⟩
  | succ k ih =>
    obtain ⟨hnone, hrest⟩ := h
    obtain ⟨hbefore, hend⟩ := ih hrest
    refine ⟨fun i hi => ?_, hend⟩
    cases i with
    | zero => exact hnone
    | succ i => exact hbefore i (Nat.lt_of_succ_lt_succ hi)

/-- Behind a comma, and behind a colon and a word, two machines are abreast again. -/
theorem Abreast.pastWord {u u' u'' : Token} (h : Abreast y (u :: more) (u' :: u'' :: more') s t)
    (r : LogRecord) : Abreast y more more' s.past (t.past.record r).past := by
  have hpeek := List.getElem?_eq_some_iff.mp (Program.peek?_of_rest (rest_past h.right))
  obtain ⟨hindex, -⟩ := hpeek
  refine ⟨?_, rest_past h.left, rest_past (rest_past h.right), hindex, h.line, h.jumped, h.quiet⟩
  obtain ⟨⟨hhas, hreads, i, log, rfl⟩, -⟩ := h
  exact ⟨hhas, hreads, i + 1 + 1, log.push r, rfl⟩

/-- Behind the list, both machines are at the end of their statement. -/
theorem Abreast.parallel (h : Abreast y y.after y.after s t) (hs : s.Active o) :
    Parallel y s t ∧ y.stop ≤ s.program.location.index := by
  have hindex := hs.program.index
  have hwithin := h.within
  have hleft := congrArg List.length h.left
  have hright := congrArg List.length h.right
  have hline := h.line
  have hcurrent := (h.rewords.has.current hs.program.synced).resolve_right (absurd hline)
  have hold := y.length_oldText
  have hnew := y.length_newText
  have hle : y.old.length ≤ y.stop := Nat.le_add_left _ _
  rw [h.rewords.current, hline, Rewording.text, if_pos rfl] at hwithin
  rw [Program.rest, h.rewords.current, hline, Rewording.text, if_pos rfl,
    List.length_drop] at hright
  rw [Program.rest, hcurrent, List.length_drop] at hleft
  rw [hcurrent] at hindex
  -- as many tokens are left as come behind the list, and that fixes the place
  have hstop : s.program.location.index = y.stop := by omega
  have hplace : t.program.location.index = (y.place s.program.location).index := by
    simp only [Rewording.place, if_pos hline, Rewording.index, hstop, Nat.le_refl, if_true]
    omega
  obtain ⟨⟨hhas, hreads, i, log, rfl⟩, -⟩ := h
  obtain rfl : i = _ := hplace
  exact ⟨⟨hhas, hreads, log, rfl⟩, hstop.ge⟩

/-- Back at the body of a loop, control has been transferred. -/
theorem jumped_endStep (h : s.program.jumped = true) (line : Line) :
    (endStep line (.ok () s)).2.program.jumped = true := by
  rw [endStep]
  cases hnext : s.toStatement? with
  | none => exact (congrArg (·.jumped) (enter_program s .idle)).trans h
  | some s' =>
    rcases toStatement?_eq_some hnext with ⟨rfl, -⟩ | ⟨start, tokens, rfl⟩
    · exact h
    · exact h

/-- An item ends the step, or it leaves both machines in front of what comes next. -/
theorem endsAlike_or_goesOn (hw : w.Closed) (hname : word = .next → w = .scalar w.name)
    (hs : s.Active o) (h : Abreast y (w.tokens ++ more) (w.tokens ++ more') s t)
    (hmore : more.head? ≠ some (.mark .lparen)) (hmore' : more'.head? ≠ some (.mark .lparen))
    (hempty : more = [] ↔ more' = []) (n n' : Nat) (line : Line) :
    EndsAlike y (finishList word n line s) (finishList word n' line t) ∧
        ((finishList word n line s).1 ≠ none ∨
          (finishList word n line s).2.program.jumped = true) ∨
      ∃ s' t', word.item s = .ok true s' ∧ word.item t = .ok true t' ∧ s'.Active o ∧
        Abreast y more more' s' t' := by
  have hconcludes := concludes_item word hs
  rcases (together_item hw hname hs h hmore hmore' hempty).cases with
    ⟨again, s', t', hleft, hright, ⟨rfl, hend⟩ | ⟨rfl, hjumped, hparallel⟩⟩ |
      ⟨e, s', t', hleft, hright, hrewords⟩
  · rw [hleft] at hconcludes
    exact .inr ⟨s', t', hleft, hright, hconcludes, hend⟩
  · rw [hleft] at hconcludes
    have hactive : s'.Active o := hconcludes
    rw [finishList_eq (eachItem_of_false hleft n), finishList_eq (eachItem_of_false hright n'),
      endStatement_of_jumped hjumped,
      endStatement_of_jumped (hparallel.rewords.jumped.trans hjumped)]
    exact .inl ⟨hparallel.endStep hactive.program.synced line, .inr (jumped_endStep hjumped line)⟩
  · rw [hleft] at hconcludes
    cases e with
    | fault c =>
      rw [finishList_of_error hleft, finishList_of_error hright]
      exact .inl ⟨hrewords.endStep c line, .inl (Option.some_ne_none _)⟩
    | signal sig => exact hconcludes.elim

/-- The last item of the list. -/
theorem endsAlike_last (hs : s'.Active o) (h : Abreast y y.after y.after s' t')
    (hafter : ∀ u ∈ y.after.head?, u.endsStatement = true) (hleft : word.item s = .ok true s')
    (hright : word.item t = .ok true t') (n n' : Nat) (line : Line) :
    EndsAlike y (finishList word n line s) (finishList word n' line t) := by
  have hcomma : y.after.head? ≠ some (.mark .comma) := fun hhead =>
    absurd (hafter _ hhead) (by simp [Token.endsStatement])
  have hlist := eachItem_of_last hleft (by rwa [h.left]) n
  have hlist' := eachItem_of_last hright (by rwa [h.right]) n'
  obtain ⟨hparallel, hstop⟩ := h.parallel hs
  have hconcludes := concludes_endStatement s'
  rw [finishList_eq hlist, finishList_eq hlist']
  rcases (hparallel.together_endStatement hs.program.synced h.line hstop).cases with
    ⟨_, s₁, t₁, hend, hend', h₁⟩ | ⟨e, s₁, t₁, hend, hend', h₁⟩
  · rw [hend, hend']
    refine h₁.endStep ?_ line
    rw [hend] at hconcludes
    rcases hconcludes with ⟨-, rfl⟩ | ⟨-, i, rfl, -⟩
    · exact hs.program.synced
    · exact hs.program.synced
  · rw [hend] at hconcludes
    rw [hend, hend']
    cases e with
    | fault c => exact h₁.endStep c line
    | signal sig => exact hconcludes.elim

/-- Another item follows. The first machine goes on behind the comma, and the second one has ended a
step; its next step starts with the same item. -/
theorem exists_nextItem {name : Name} {ts : List Token} (hs : s'.Active o)
    (h : Abreast y (.mark .comma :: more)
      (.mark .colon :: .keyword word.keyword :: .symbol name :: ts) s' t')
    (hleft : word.item s = .ok true s') (hright : word.item t = .ok true t') (n n' : Nat) :
    finishList word (n + 1) y.line s = finishList word n y.line s'.past ∧ s'.past.Active o ∧
      finishList word n' y.line t = (none, t'.past) ∧
        ∃ t₁ k, t'.past.step = finishList word k y.line t₁ ∧
          Abreast y more (.symbol name :: ts) s'.past t₁ := by
  have hjumped := h.rewords.jumped.trans h.jumped
  have hquiet := h.rewords.tracing.trans h.quiet
  have hrunning := h.rewords.state.trans hs.running
  have hword := rest_past h.right
  have hcomma : finishList word (n + 1) y.line s = finishList word n y.line s'.past := by
    rw [finishList, finishList, bind_apply, bind_apply, eachItem_of_comma hleft h.left]
  have hcolon : finishList word n' y.line t = (none, t'.past) := by
    rw [finishList_eq (eachItem_of_last hright (by rw [h.right]; simp) n'),
      endStatement_of_colon h.right hjumped, endStep, toStatement?_eq (Program.peek?_of_rest hword)]
  have hnext := upcoming?_of_quiet (m := t'.past) hquiet hjumped hword (by simp)
  have hstep := step_list_eq (m := t'.past) hrunning hnext hword
  have hline : (t'.past.record (.statement t'.past.program.location)).program.location.line =
      y.line := h.rewords.line.trans h.line
  rw [hline] at hstep
  exact ⟨hcomma, hs.walked (Trod.past h.left rfl).toWalked, hcolon, _, _, hstep, h.pastWord _⟩

/-- One step with a list, and a step for each of its items. -/
theorem exists_arrives {ws : List Written} (hclosed : ∀ v ∈ w :: ws, v.Closed)
    (hnames : word = .next → ∀ v ∈ w :: ws, v = .scalar v.name) (hs : s.Active o)
    (hafter : ∀ u ∈ y.after.head?, u.endsStatement = true)
    (h : Abreast y (w.tokens ++ (ListWord.commas ws ++ y.after))
      (w.tokens ++ (word.colons ws ++ y.after)) s t) {n : Nat} (hn : ws.length ≤ n) (n' : Nat) :
    ∃ k ≤ ws.length,
      Arrives y (finishList word n y.line s) k (finishList word n' y.line t) ∧
        (k < ws.length → (finishList word n y.line s).1 ≠ none ∨
          (finishList word n y.line s).2.program.jumped = true) := by
  -- item by item: the list goes on in the same step, the other line in one step more
  induction ws generalizing w s t n n' with
  | nil =>
    have hlparen : y.after.head? ≠ some (.mark .lparen) := fun hhead =>
      absurd (hafter _ hhead) (by simp [Token.endsStatement])
    have hw := hclosed w List.mem_cons_self
    have hname := fun hword => hnames hword w List.mem_cons_self
    rcases endsAlike_or_goesOn hw hname hs h hlparen hlparen Iff.rfl n n' y.line with
      ⟨hend, -⟩ | ⟨s', t', hleft, hright, hactive, h'⟩
    · exact ⟨0, Nat.le_refl 0, hend, fun hlt => absurd hlt (Nat.lt_irrefl 0)⟩
    · exact ⟨0, Nat.le_refl 0, endsAlike_last hactive h' hafter hleft hright n n' y.line,
        fun hlt => absurd hlt (Nat.lt_irrefl 0)⟩
  | cons v ws ih =>
    obtain ⟨hw, hothers⟩ := List.forall_mem_cons.mp hclosed
    have hname := fun hword => hnames hword w List.mem_cons_self
    obtain ⟨n, rfl⟩ : ∃ n₀, n = n₀ + 1 := Nat.exists_eq_add_of_le' (Nat.le_of_add_left_le hn)
    rw [ListWord.commas_cons, ListWord.colons_cons] at h
    simp only [List.cons_append, List.append_assoc] at h
    rcases endsAlike_or_goesOn hw hname hs h (by simp) (by simp) (by simp) (n + 1) n' y.line with
      ⟨hend, hleaves⟩ | ⟨s', t', hleft, hright, hactive, h'⟩
    · exact ⟨0, Nat.zero_le _, hend, fun _ => hleaves⟩
    · rw [v.tokens_append (word.colons ws ++ y.after)] at h'
      obtain ⟨hcomma, hpast, hcolon, t₁, n₁, hstep, h₁⟩ :=
        exists_nextItem hactive h' hleft hright n n'
      rw [← v.tokens_append] at h₁
      obtain ⟨k, hk, harrives, hleaves⟩ := ih hothers
        (fun hword u hu => hnames hword u (List.mem_cons_of_mem _ hu)) hpast h₁
        (Nat.le_of_succ_le_succ hn) n₁
      rw [hcomma, hcolon]
      exact ⟨k + 1, Nat.succ_le_succ hk, ⟨rfl, hstep ▸ harrives⟩,
        fun hlt => hleaves (Nat.lt_of_succ_lt_succ hlt)⟩

/-- At the statement, the two machines are abreast behind the word. -/
theorem Parallel.abreast (h : Parallel y s t) (hs : s.Active o)
    (hline : s.program.location.line = y.line)
    (hindex : s.program.location.index = y.before.length) (hjumped : s.program.jumped = false)
    (hquiet : s.tracing = false) :
    s.program.rest = .keyword y.word :: .symbol y.name :: (y.old ++ y.after) ∧
      t.program.rest = .keyword y.word :: .symbol y.name :: (y.new ++ y.after) ∧
      Abreast y (.symbol y.name :: (y.old ++ y.after)) (.symbol y.name :: (y.new ++ y.after))
        s.past t.past := by
  have hcurrent := (h.has.current hs.program.synced).resolve_right (absurd hline)
  obtain ⟨hold, hnew⟩ := Program.rest_reworded_before hline hcurrent hindex.le
  rw [hindex, List.drop_length, List.nil_append] at hold hnew
  rw [← h.program] at hnew
  refine ⟨hold, hnew, ?_, rest_past hold, rest_past hnew, ?_, hline, hjumped, hquiet⟩
  · obtain ⟨hhas, hreads, log, rfl⟩ := h
    exact ⟨hhas, hreads, (y.place s.program.location).index + 1, log, rfl⟩
  · exact (List.getElem?_eq_some_iff.mp (Program.peek?_of_rest hnew)).1

/-! ### The whole list -/

/-- The machine runs without tracing, and its next step executes the list, which is a whole
statement of its line and stands there between `before` and `after`. -/
structure AtList (m : Machine) (l : ItemList) (line : Line) (before after : List Token) : Prop where
  running : m.state = .running
  quiet : m.tracing = false
  upcoming : ∃ s, m.upcoming? = some s ∧ s.program.location = ⟨line, before.length⟩ ∧
    s.program.current = before ++ (l.tokens ++ after)
  ends : ∀ u ∈ after.head?, u.endsStatement = true

/-- A list that is entered as a line is executed next. -/
theorem atList_startImmediate (hquiet : m.tracing = false) (l : ItemList) :
    (m.startImmediate l.tokens).AtList l .immediate [] [] := by
  have hprogram : (m.startImmediate l.tokens).program = m.program.setImmediate l.tokens :=
    enter_program _ _
  have hpeek : (m.startImmediate l.tokens).program.peek? = some (.keyword l.word.keyword) := by
    rw [hprogram]
    rfl
  have hcolons := takeWhile_rest_eq_nil hpeek (by simp)
  have hstart : (m.startImmediate l.tokens).announce.atStatement.program =
      (m.program.setImmediate l.tokens).clearJumped := by
    rw [atStatement, announce_program, hcolons, hprogram]
    rfl
  refine ⟨rfl, ?_, ⟨_, by rw [upcoming?, toStatement?_eq hpeek]; rfl, ?_, ?_⟩, by simp⟩
  · rw [startImmediate, enter]
    split <;> exact hquiet
  · rw [hstart]
    rfl
  · rw [hstart, List.nil_append, List.append_nil]
    rfl

section Whole

variable {l : ItemList} {line : Line} {before after : List Token}

/-- A step from a machine at the list, and the steps of the machine whose line has a statement for
each item. -/
theorem AtList.exists_arrives (h : m.AtList l line before after) (hm : Reachable o m) :
    ∃ k ≤ l.others.length,
      Arrives (l.rewording line before after) m.step k
          (m.reworded (l.rewording line before after)).step ∧
        (k < l.others.length → m.step.1 ≠ none ∨ m.step.2.program.jumped = true) := by
  obtain ⟨s, hnext, hlocation, hcurrent⟩ := h.upcoming
  have hline : s.program.location.line = line := congrArg Location.line hlocation
  have hindex : s.program.location.index = before.length := congrArg Location.index hlocation
  have hactive := hm.sound.active h.running
  have hs := hactive.upcoming? hnext
  have hkept := upcoming?_eq_some hnext h.quiet
  have hquiet : s.tracing = false ∧ s.program.jumped = false := by
    obtain ⟨loc, tokens, log, rfl⟩ := hkept
    exact ⟨h.quiet, rfl⟩
  have hhas : m.program.Has (l.rewording line before after) := by
    have hsynced := hs.program.synced
    rw [Program.Synced, hcurrent, hline, ← l.oldText_rewording line before after] at hsynced
    obtain ⟨loc, tokens, log, rfl⟩ := hkept
    exact hsynced
  have hparallel : Parallel _ m (m.reworded _) := ⟨hhas, hm.readsBodies hhas, m.log, rfl⟩
  obtain ⟨t, hnext', hst⟩ := hparallel.upcoming? hactive h.quiet hnext hline hindex
  obtain ⟨hrest, hrest', habreast⟩ := hst.abreast hs hline hindex hquiet.2 hquiet.1
  have hbehind : ∀ us, Token.symbol l.first.name :: (l.first.tail ++ us ++ after) =
      l.first.tokens ++ (us ++ after) := by
    intro us
    rw [l.first.tokens_append, List.append_assoc]
  have hitems : Abreast (l.rewording line before after)
      (l.first.tokens ++ (ListWord.commas l.others ++ after))
      (l.first.tokens ++ (l.word.colons l.others ++ after)) s.past t.past := by
    rw [← hbehind, ← hbehind]
    exact habreast
  have hpast : s.past.Active o := hs.walked (.skip (Program.peek?_of_rest hrest))
  have hlength := l.length_others_le
  rw [step_list_eq h.running hnext hrest, step_list_eq (m := m.reworded _) h.running hnext' hrest',
    hst.rewords.line, hline]
  refine Machine.exists_arrives l.closed l.names hpast h.ends hitems ?_ _
  simp only [ItemList.rewording, List.length_append]
  omega

/-- One step that executes a whole list ends as the steps that execute a statement for each of its
items: with the same fault, if any, and with the same variables, arrays, random numbers, place in
the data and pending loops. None of the several steps but the last one fails, and there are as many
as items unless an item fails or a loop goes round again. Without a fault the machines are at the
same place, where what comes behind the list has moved along with its tokens. -/
theorem Reachable.step_list (hm : Reachable o m) (h : m.AtList l line before after) :
    let y := l.rewording line before after
    ∃ k ≤ l.others.length, ∃ r, r = ((m.reworded y).steps k).step ∧
      (∀ i < k, ((m.reworded y).steps i).step.1 = none) ∧
      (k < l.others.length → m.step.1 ≠ none ∨ m.step.2.program.jumped = true) ∧
      r.1 = m.step.1 ∧
      r.2.scalars = m.step.2.scalars ∧ r.2.arrays = m.step.2.arrays ∧
      r.2.random = m.step.2.random ∧ r.2.lastRandom = m.step.2.lastRandom ∧
      r.2.program.dataIndex = m.step.2.program.dataIndex ∧
      r.2.program.loops = m.step.2.program.loops.map y.loop ∧
      (m.step.1 = none → r.2.program.location = y.place m.step.2.program.location ∧
        ((m.step.2.program.location.line = line →
            m.step.2.program.location.index ≤ before.length) →
          r.2.program.location = m.step.2.program.location)) := by
  intro y
  obtain ⟨k, hk, harrives, hleaves⟩ := h.exists_arrives hm
  obtain ⟨hbefore, hend⟩ := harrives.steps
  have hplace : m.step.1 = none →
      ((m.reworded y).steps k).step.2.program.location = y.place m.step.2.program.location := by
    intro hnone
    rw [(hend.parallel hnone).program]
    rfl
  refine ⟨k, hk, _, rfl, hbefore, hleaves, hend.fault, ?_⟩
  obtain ⟨-, -, i, log, heq⟩ := hend.rewords
  rw [heq] at hplace ⊢
  refine ⟨rfl, rfl, rfl, rfl, rfl, rfl, fun hnone => ⟨hplace hnone, fun hleft => ?_⟩⟩
  exact (hplace hnone).trans (Rewording.place_of_le hleft)

/-- `READ A$,B$` -/
def readPair : ItemList where
  word := .read
  first := .scalar (utf8 "A$")
  others := [.scalar (utf8 "B$")]
  closed := by simp [Written.Closed]
  names := by simp

/-- Here both strings are read from the data, by one statement and by two. -/
theorem step_list_readPair :
    ∃ m n, Reachable {} m ∧ m.AtList readPair .immediate [] [] ∧ Reachable {} n ∧
      n.program.current = readPair.apart ∧
      m.step.1 = none ∧ m.step.2.scalars[utf8 "B$"]? = some (.str (utf8 "Y")) ∧
      n.step.1 = none ∧ (n.steps 1).step.1 = none ∧ (n.steps 2).scalars = m.step.2.scalars ∧
      (n.steps 2).program.dataIndex = m.step.2.program.dataIndex := by
  have hstored : Reachable {} ((new {}).perform (.submit (utf8 "10 DATA X,Y"))) := .perform _ .start
  have hstopped : ¬ (((new {}).perform (.submit (utf8 "10 DATA X,Y"))).state = .running ∨
      ((new {}).perform (.submit (utf8 "10 DATA X,Y"))).state = .awaitingInput) := by decide +kernel
  have hquiet : ((new {}).perform (.submit (utf8 "10 DATA X,Y"))).tracing = false := by
    decide +kernel
  have hnone : (((new {}).perform (.submit (utf8 "10 DATA X,Y"))).startImmediate
      readPair.tokens).step.1 = none := by decide +kernel
  have hstays : (((new {}).perform (.submit (utf8 "10 DATA X,Y"))).startImmediate
      readPair.tokens).step.2.program.jumped = false := by decide +kernel
  have hread : (((new {}).perform (.submit (utf8 "10 DATA X,Y"))).startImmediate
      readPair.tokens).step.2.scalars[utf8 "B$"]? = some (.str (utf8 "Y")) := by decide +kernel
  generalize (new {}).perform (.submit (utf8 "10 DATA X,Y")) = m at *
  have hlisted : Reachable {} (m.startImmediate readPair.tokens) := by
    have hentered : m.perform (.submit (utf8 "READ A$,B$")) = m.startImmediate readPair.tokens :=
      perform_immediate hstopped (by decide +kernel) (by decide +kernel) (by decide +kernel)
        (by decide +kernel)
    exact hentered ▸ hstored.perform _
  have hapart : Reachable {} (m.startImmediate readPair.apart) := by
    have hentered : m.perform (.submit (utf8 "READ A$:READ B$")) =
        m.startImmediate readPair.apart :=
      perform_immediate hstopped (by decide +kernel) (by decide +kernel) (by decide +kernel)
        (by decide +kernel)
    exact hentered ▸ hstored.perform _
  have hreworded := hstored.startImmediate_reworded (y := readPair.rewording .immediate [] []) rfl
  rw [ItemList.oldText_rewording, ItemList.newText_rewording, List.nil_append, List.append_nil,
    List.nil_append, List.append_nil] at hreworded
  have hatList := atList_startImmediate hquiet readPair
  obtain ⟨k, hk, r, rfl, hbefore, hleaves, hfault, hscalars, -, -, -, hdata, -⟩ :=
    hlisted.step_list hatList
  rw [hreworded] at hbefore hfault hscalars hdata
  have hlast : k = 1 := by
    refine Nat.le_antisymm hk (Nat.not_lt.mp fun hlt => ?_)
    rcases hleaves hlt with hfails | hjumps
    · exact hfails hnone
    · rw [hstays] at hjumps
      cases hjumps
  subst hlast
  exact ⟨_, _, hlisted, hatList, hapart, by rw [startImmediate, enter_program]; rfl, hnone, hread,
    hbefore 0 Nat.one_pos, hfault.trans hnone, hscalars, hdata⟩

end Whole

end Machine

end LineBasic
