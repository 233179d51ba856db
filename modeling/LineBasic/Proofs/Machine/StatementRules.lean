import LineBasic.Proofs.Field
import LineBasic.Proofs.Machine.EvalRules
import LineBasic.Proofs.Program.Transfer

/-!
# Rules for statements

Statements get their properties from their parts as evaluation does. The parts that read the line
are the same in most statements, and there are few of them; what a statement does to the machine is
often one part at its end. Here the statements are taken apart once, for all properties that go from
the parts to the whole.

Some properties need to know more at one statement, such as that the keyword of an `INPUT` was just
passed. So a property may have the rules for the parts that read the line only, and the lemmas about
single statements ask for what else they need.

## Main definitions

* `Machine.past` — a machine behind the token at its location
* `ReadRules` — a property of actions that goes from the parts of a statement to the whole, and that
  the parts that read the line have
* `ExecRules` — one that assignments have as well
* `Machine.chooseBranch` — the choice that an `IF` makes
* `Machine.endBranch` — what an `INPUT` in a branch does at the end
* `Machine.endStatement` — what comes after a statement
* `StatementRules` — a property that all parts of statements have

## Main results

* `ReadRules.items`, `ReadRules.printItems`, `ReadRules.promptText` — the parts that read the line
* `ExecRules.ifStatement`, `ExecRules.forStatement` and others — single
  statements
* `StatementRules.statement` — every statement
-/

namespace LineBasic

namespace Machine

/-! ### Taking a token -/

/-- The machine behind the token at the location. -/
def past (m : Machine) : Machine :=
  { m with program := m.program.skip 1 }

theorem accept_apply (k : Token.Kind) (m : Machine) :
    accept k m = if m.program.peekKind? = some k then .ok true m.past else .ok false m := by
  by_cases hk : m.program.peekKind? = some k
  · simp only [accept, ofEval, onProgram, Program.accept, if_pos hk]
    rfl
  · simp only [accept, ofEval, onProgram, Program.accept, if_neg hk]

theorem accept_bind_of_peek {α : Type} {m : Machine} {t : Token} (h : m.program.peek? = some t)
    (f : Bool → Exec α) : (accept t.kind >>= f) m = f true m.past := by
  have hkind : m.program.peekKind? = some t.kind := congrArg (Option.map Token.kind) h
  rw [bind_apply, accept_apply, if_pos hkind]

theorem accept_bind_of_ne {α : Type} {m : Machine} {k : Token.Kind}
    (h : m.program.peekKind? ≠ some k) (f : Bool → Exec α) : (accept k >>= f) m = f false m := by
  rw [bind_apply, accept_apply, if_neg h]

/-- A `PRINT` takes its separators as other lists take theirs. -/
theorem printItems_succ (items : Nat) (out : Printout) :
    printItems (items + 1) out = (do
      if (← get).program.atStatementEnd then return out
      if ← accept (.mark .comma) then
        printItems items ⟨if out.afterSemicolon then out.text else out.text ++ [0x09], true, false⟩
      else if ← accept (.mark .semicolon) then printItems items ⟨out.text, false, true⟩
      else
        let v ← expression
        printItems items ⟨out.text ++ v.text, true, false⟩) := by
  funext m
  rw [printItems, get_bind_apply, get_bind_apply]
  dsimp only
  split
  · rfl
  · generalize (if out.afterSemicolon = true then out.text else out.text ++ [0x09]) = tabbed
    generalize hpeek : m.program.peek? = peeked
    symm
    split
    · exact accept_bind_of_peek hpeek _
    · rw [accept_bind_of_ne (by simp [Program.peekKind?, hpeek, Token.kind])]
      exact accept_bind_of_peek hpeek _
    · next hcomma hsemicolon =>
      rw [← hpeek] at hcomma hsemicolon
      rw [accept_bind_of_ne (mt Program.peek?_of_peekKind?_mark hcomma)]
      exact accept_bind_of_ne (mt Program.peek?_of_peekKind?_mark hsemicolon) _

/-- So does an `INPUT` its text. -/
theorem promptText_eq :
    promptText = (do
      match (← get).program.peek? with
      | some (.string s) =>
        if ← accept .string then
          if ← accept (.mark .semicolon) then return s
          else if ← accept (.mark .comma) then return s
          else fail (.expected (.mark .semicolon))
        else return usualPrompt
      | _ => return usualPrompt) := by
  funext m
  rw [promptText, get_bind_apply, get_bind_apply]
  generalize hpeek : m.program.peek? = peeked
  rcases peeked with _ | t
  · rfl
  · cases t with
    | string s =>
      symm
      exact accept_bind_of_peek hpeek _
    | _ => rfl

/-- And a branch the number of its line. -/
theorem branch_eq (statement : Exec Unit) :
    branch statement = (do
      match (← get).program.peek? with
      | some (.number x) => if ← accept .number then goToNumber x
      | _ => aloneOnLine statement) := by
  funext m
  rw [branch, get_bind_apply, get_bind_apply]
  generalize hpeek : m.program.peek? = peeked
  rcases peeked with _ | t
  · rfl
  · cases t with
    | number x =>
      symm
      exact accept_bind_of_peek hpeek _
    | _ => rfl

/-! ### Parts of statements -/

/-- The choice that an `IF` makes: whether there is a branch to execute, which is then at the
location. -/
def chooseBranch : Exec Bool := do
  let condition ← expression
  if !(← accept (.keyword .THEN)) then
    let p := (← get).program
    if p.peekKind? ≠ some (.keyword .GOTO) then
      if p.atEnd then fail .endOfInput
      fail (.expected (.keyword .THEN))
  if condition.truth then return true
  skipBranch

/-- An `IF` chooses a branch and executes it. -/
theorem ifStatement_eq (statement : Exec Unit) :
    ifStatement statement = (do if ← chooseBranch then branch statement) := by
  rw [ifStatement, chooseBranch, bind_assoc]
  congr 1
  funext condition
  rw [bind_assoc]
  congr 1
  funext found
  cases found with
  | true =>
    cases condition.truth with
    | true => rfl
    | false => rfl
  | false =>
    funext m
    simp only [Bool.not_false, if_true, bind_apply, get_apply]
    by_cases hgoto : m.program.peekKind? ≠ some (.keyword .GOTO)
    · by_cases hend : m.program.atEnd = true
      · simp only [if_pos hgoto, if_pos hend]
        rfl
      · simp only [if_pos hgoto, if_neg hend]
        rfl
    · simp only [if_neg hgoto]
      cases condition.truth with
      | true => rfl
      | false => rfl

/-- A branch that is not taken is walked past. -/
theorem skipBranch_eq :
    skipBranch = (do
      let p := (← get).program
      let skipped := (p.rest.takeWhile (!endsBranch ·)).length
      match (p.skip skipped).peek? with
      | some (.keyword .ELSE) =>
        modifyProgram (·.skip (skipped + 1))
        return true
      | _ =>
        modifyProgram Program.discardRest
        return false) := by
  funext m
  rw [skipBranch, get_bind_apply, get_bind_apply]
  generalize (m.program.skip (m.program.rest.takeWhile (!endsBranch ·)).length).peek? = peeked
  rcases peeked with _ | t
  · rfl
  · cases t with
    | keyword k => cases k <;> rfl
    | _ => rfl

/-- What holds of a branch however its statement ends, if dropping the rest of the line does not
change it, nor does remembering where an `INPUT` waits. -/
theorem concludes_aloneOnLine {x : Exec Unit} {m : Machine} {Q : Machine → Prop}
    {E : Stop → Machine → Prop} (hx : Concludes (fun _ => Q) E (x m))
    (hdiscard : ∀ m', Q m' → Q { m' with program := m'.program.discardRest })
    (hmark : ∀ m', E (.signal .awaitInput) m' →
      E (.signal .awaitInput) { m' with branchInput := some m'.program.location }) :
    Concludes (fun _ => Q) E (aloneOnLine x m) := by
  rw [aloneOnLine]
  split
  · next m' heq =>
    have hend := hx.of_ok heq
    split
    · exact hend
    · exact hdiscard m' hend
  · next m' heq => exact hmark m' (hx.of_error heq)
  · next heq => exact hx.of_error heq

/-- What an `INPUT` at `keyword` does when its value is stored: in a branch, the rest of the line is
dropped. -/
def endBranch (keyword : Location) : Exec Unit := do
  if (← get).branchInput = some keyword then
    modify fun m => { m with branchInput := none, program := m.program.discardRest }

/-- What comes after a statement. -/
def endStatement : Exec Unit := do
  let p := (← get).program
  if p.jumped || p.atEnd then return
  if ← accept (.mark .colon) then return
  if p.peekKind? = some (.keyword .ELSE) then modifyProgram Program.discardRest
  else fail (.unexpected p.peekKind?)

end Machine

open Machine

/-! ### Reading the line -/

/-- A property of actions that goes from the parts of a statement to the whole, and that the parts
have that read the line. Of the tokens that are taken, those count that can stand inside a
statement. A machine that is looked at may be known to satisfy `I`. -/
structure ReadRules (I : Machine → Prop) (P : (α : Type) → Exec α → Prop) : Prop where
  pure : ∀ {α : Type} (a : α), P α (Pure.pure a)
  bind : ∀ {α β : Type} {x : Exec α} {f : α → Exec β}, P α x → (∀ a, P β (f a)) → P β (x >>= f)
  look : ∀ {α : Type} {f : Machine → Exec α},
    (∀ (m : Machine) (b : Backdrop),
      f (m.against { b with arrays := m.arrays, reply := m.reply }) = f m) →
    (∀ m, I m → P α (f m)) → P α (get >>= f)
  fail : ∀ {α : Type} {c : Cause}, c.Ordinary → c.ownLine = none → P α (Machine.fail c)
  ofExcept : ∀ {α : Type} {r : Except Cause α}, FailsInExpression r →
    P α (ofEval (Machine.ofExcept r))
  accept : ∀ {k : Token.Kind}, k.isInner = true → P Bool (Machine.accept k)
  expect : ∀ {k : Token.Kind}, k.isInner = true → P Unit (Machine.expect k)
  nextName : P Name Machine.nextName
  expression : P Value (ofEval Machine.expression)
  numberExpression : P Float (ofEval Machine.numberExpression)
  subscripts : P (List Int) (ofEval Machine.subscripts)
  target : P Target (ofEval Machine.target)

namespace ReadRules

variable {I : Machine → Prop} {P : (α : Type) → Exec α → Prop}

/-- A weaker property has the rules as well, if it goes from the parts to the whole. -/
theorem mono {P' : (α : Type) → Exec α → Prop} (h : ReadRules I P)
    (hP : ∀ {α : Type} {x : Exec α}, P α x → P' α x)
    (hbind : ∀ {α β : Type} {x : Exec α} {f : α → Exec β}, P' α x → (∀ a, P' β (f a)) →
      P' β (x >>= f))
    (hlook : ∀ {α : Type} {f : Machine → Exec α}, (∀ m, I m → P' α (f m)) → P' α (get >>= f)) :
    ReadRules I P' where
  pure a := hP (h.pure a)
  bind := hbind
  look _ := hlook
  fail hc hline := hP (h.fail hc hline)
  ofExcept hr := hP (h.ofExcept hr)
  accept hk := hP (h.accept hk)
  expect hk := hP (h.expect hk)
  nextName := hP h.nextName
  expression := hP h.expression
  numberExpression := hP h.numberExpression
  subscripts := hP h.subscripts
  target := hP h.target

theorem expectStatementEnd (h : ReadRules I P) : P Unit Machine.expectStatementEnd := by
  refine h.look (fun _ _ => rfl) fun m _ => ?_
  dsimp only
  split
  · exact h.fail nofun rfl
  · exact h.pure ()

theorem eachItem (h : ReadRules I P) {item : Exec Bool} (hitem : P Bool item) (more : Nat) :
    P Unit (Machine.eachItem item more) := by
  induction more with
  | zero => exact h.bind hitem fun _ => h.pure ()
  | succ more ih =>
    refine h.bind hitem fun again => ?_
    cases again with
    | false => exact h.pure ()
    | true =>
      refine h.bind (h.accept rfl) fun found => ?_
      cases found with
      | false => exact h.pure ()
      | true => exact ih

/-- A list has the property if an item has. -/
theorem items (h : ReadRules I P) {item : Exec Bool} (hitem : P Bool item) :
    P Unit (Machine.items item) :=
  h.look (fun _ _ => rfl) fun m _ => h.eachItem hitem m.program.rest.length

theorem moreNames (h : ReadRules I P) (names : Nat) :
    P (List Name) (Machine.moreNames names) := by
  induction names with
  | zero => exact h.pure []
  | succ names ih =>
    refine h.bind (h.accept rfl) fun found => ?_
    cases found with
    | true => exact h.bind h.nextName fun name => h.bind ih fun others => h.pure _
    | false => exact h.pure []

theorem printItems (h : ReadRules I P) (items : Nat) (out : Printout) :
    P Printout (Machine.printItems items out) := by
  induction items generalizing out with
  | zero => exact h.pure out
  | succ items ih =>
    rw [printItems_succ]
    refine h.look (fun _ _ => rfl) fun m _ => ?_
    split
    · exact h.pure out
    · refine h.bind (h.accept rfl) fun comma => ?_
      cases comma with
      | true => exact ih _
      | false =>
        refine h.bind (h.accept rfl) fun semicolon => ?_
        cases semicolon with
        | true => exact ih _
        | false => exact h.bind h.expression fun _ => ih _

theorem promptText (h : ReadRules I P) : P Bytes Machine.promptText := by
  rw [promptText_eq]
  refine h.look (fun _ _ => rfl) fun m _ => ?_
  split
  · refine h.bind (h.accept rfl) fun found => ?_
    cases found with
    | false => exact h.pure _
    | true =>
      refine h.bind (h.accept rfl) fun semicolon => ?_
      cases semicolon with
      | true => exact h.pure _
      | false =>
        refine h.bind (h.accept rfl) fun comma => ?_
        cases comma with
        | true => exact h.pure _
        | false => exact h.fail nofun rfl
  · exact h.pure _

end ReadRules

/-! ### Single statements -/

/-- A property that the parts have that read the line, and assignments as well. -/
structure ExecRules (I : Machine → Prop) (P : (α : Type) → Exec α → Prop) : Prop
    extends ReadRules I P where
  assign : ∀ (t : Target) (v : Value), P Unit (ofEval (Machine.assign t v))
  emit : ∀ e : Event, P Unit (modify (·.emit e))
  ask : ∀ prompt : Bytes, P Unit (modify fun m => { m with prompt })

namespace ExecRules

variable {I : Machine → Prop} {P : (α : Type) → Exec α → Prop}

/-! ### Assignment and output -/

theorem letStatement (h : ExecRules I P) : P Unit Machine.letStatement :=
  h.bind h.target fun t => h.bind (h.expect rfl) fun _ => h.bind h.expression fun v => h.assign t v

theorem dimItem (h : ExecRules I P)
    (hset : ∀ (name : Name) (g : Grid),
      P Unit (modify fun m => { m with arrays := m.arrays.insert name g })) :
    P Bool Machine.dimItem := by
  refine h.bind h.nextName fun name => h.bind (h.expect rfl) fun _ => ?_
  refine h.bind h.subscripts fun bounds => h.look (fun _ _ => rfl) fun m _ => ?_
  dsimp only
  split
  · exact h.fail nofun rfl
  · refine h.bind (h.ofExcept (Grid.failsInExpression_make _ _ _)) fun g => ?_
    exact h.bind (hset name g) fun _ => h.pure true

theorem dimStatement (h : ExecRules I P) (hitem : P Bool Machine.dimItem) :
    P Unit Machine.dimStatement := by
  refine h.look (fun _ _ => rfl) fun m _ => ?_
  split
  · exact h.emit _
  · exact h.items hitem

theorem printStatement (h : ExecRules I P) : P Unit Machine.printStatement :=
  h.look (fun _ _ => rfl) fun _ _ => h.bind (h.printItems _ _) fun _ => h.emit _

/-! ### `INPUT` -/

/-- An `INPUT` waits with the property if the search for its keyword has it, even one that finds
none. -/
theorem suspend (h : ExecRules I P)
    (hrewind : P Bool (ofEval (onProgram (Program.rewindBefore (.keyword .INPUT)))))
    (hlost : P Unit (Machine.fail (.internal .inputTokenNotFound)))
    (hwait : P Unit (throw (.signal .awaitInput))) (prompt : Bytes) :
    P Unit (Machine.suspend prompt) := by
  refine h.bind hrewind fun found => ?_
  cases found with
  | true => exact h.bind (h.ask prompt) fun _ => hwait
  | false => exact hlost

theorem storeReply (h : ExecRules I P) {keyword : Location} (hend : P Unit (endBranch keyword))
    (t : Target) (v : Value) (extra : Bool) : P Unit (Machine.storeReply t v extra keyword) := by
  have hrest : P Unit (do modify fun m => { m with prompt := [] }; endBranch keyword) :=
    h.bind (h.ask []) fun _ => hend
  refine h.bind (h.assign t v) fun _ => ?_
  cases extra with
  | false => exact hrest
  | true => exact h.bind (h.emit _) fun _ => hrest

theorem takeReply (h : ExecRules I P) {keyword : Location} (hend : P Unit (endBranch keyword))
    {prompt : Bytes} (hsuspend : P Unit (Machine.suspend prompt)) (t : Target) (reply : Bytes) :
    P Unit (Machine.takeReply t reply prompt keyword) := by
  rw [Machine.takeReply]
  obtain ⟨vs, hvalues⟩ := Field.readAll_eq_cons reply
  dsimp only
  rw [hvalues, firstValue, pure_bind]
  -- only a text for a numeric target is asked for again
  generalize t.name.isString = string, (Field.read reply).1 = first
  cases string with
  | true => exact h.storeReply hend _ _ _
  | false =>
    cases first with
    | num x => exact h.storeReply hend _ _ _
    | str text => exact h.bind (h.emit _) fun _ => hsuspend

/-- The keyword of an `INPUT` is on the line that is executed. -/
theorem inputStatement (h : ExecRules I P)
    (hdrop : P Unit (modify fun m => { m with reply := none }))
    (hend : ∀ m, I m → ∀ index, P Unit (endBranch ⟨m.program.location.line, index⟩))
    (hsuspend : ∀ prompt, P Unit (Machine.suspend prompt)) : P Unit Machine.inputStatement := by
  refine h.look (fun _ _ => rfl) fun m hm => ?_
  refine h.bind h.promptText fun prompt => h.bind h.target fun t => ?_
  refine h.bind h.expectStatementEnd fun _ => h.look (fun _ _ => rfl) fun m' _ => ?_
  split
  · exact hsuspend prompt
  · exact h.bind hdrop fun _ => h.takeReply (hend m hm _) (hsuspend prompt) t _

/-! ### Jumps and branches -/

theorem goToNumber (h : ExecRules I P) (hgo : ∀ n, P Unit (ofEval (onProgram (Program.goTo n))))
    (x : Float) : P Unit (Machine.goToNumber x) :=
  h.bind (h.ofExcept (Number.failsInExpression_lineNumber x)) hgo

theorem gotoStatement (h : ExecRules I P)
    (hgo : ∀ n, P Unit (ofEval (onProgram (Program.goTo n)))) : P Unit Machine.gotoStatement :=
  h.bind h.numberExpression (h.goToNumber hgo)

theorem gosubStatement (h : ExecRules I P)
    (hgo : ∀ n, P Unit (ofEval (onProgram (Program.gosub n)))) : P Unit Machine.gosubStatement :=
  h.bind h.numberExpression fun x => h.bind (h.ofExcept (Number.failsInExpression_lineNumber x)) hgo

theorem skipBranch (h : ExecRules I P) (hskip : ∀ n, P Unit (modifyProgram (·.skip n)))
    (hdiscard : P Unit (modifyProgram Program.discardRest)) : P Bool Machine.skipBranch := by
  rw [skipBranch_eq]
  refine h.look (fun _ _ => rfl) fun m _ => ?_
  dsimp only
  split
  · exact h.bind (hskip _) fun _ => h.pure true
  · exact h.bind hdiscard fun _ => h.pure false

theorem branch (h : ExecRules I P) (hgo : ∀ n, P Unit (ofEval (onProgram (Program.goTo n))))
    {statement : Exec Unit} (halone : P Unit (aloneOnLine statement)) :
    P Unit (Machine.branch statement) := by
  rw [branch_eq]
  refine h.look (fun _ _ => rfl) fun m _ => ?_
  split
  · refine h.bind (h.accept rfl) fun found => ?_
    cases found with
    | true => exact h.goToNumber hgo _
    | false => exact h.pure ()
  · exact halone

theorem chooseBranch (h : ExecRules I P) (hthen : P Bool (Machine.accept (.keyword .THEN)))
    (hskip : P Bool Machine.skipBranch) : P Bool Machine.chooseBranch := by
  have hchoice : ∀ condition : Value,
      P Bool (if condition.truth then Pure.pure true else Machine.skipBranch) := by
    intro condition
    split
    · exact h.pure true
    · exact hskip
  refine h.bind h.expression fun condition => h.bind hthen fun found => ?_
  cases found with
  | true => exact hchoice condition
  | false =>
    refine h.look (fun _ _ => rfl) fun m _ => ?_
    by_cases hgoto : m.program.peekKind? ≠ some (.keyword .GOTO)
    · by_cases hend : m.program.atEnd = true
      · simp only [if_pos hgoto, if_pos hend]
        exact h.fail nofun rfl
      · simp only [if_pos hgoto, if_neg hend]
        exact h.fail nofun rfl
    · simp only [if_neg hgoto]
      exact hchoice condition

/-- An `IF` has the property if its branches have. -/
theorem ifStatement (h : ExecRules I P) {statement : Exec Unit}
    (hchoice : P Bool Machine.chooseBranch) (hbranch : P Unit (Machine.branch statement)) :
    P Unit (Machine.ifStatement statement) := by
  rw [ifStatement_eq]
  refine h.bind hchoice fun found => ?_
  cases found with
  | true => exact hbranch
  | false => exact h.pure ()

/-! ### Loops and data -/

/-- Where a loop starts, its variable is known to have a name of numbers. -/
theorem forStatement (h : ExecRules I P)
    (hset : ∀ (name : Name) (x : Float), name.isString = false →
      P Unit (ofEval (setVariable name (.num x))))
    (hstart : ∀ (name : Name) (limit step : Float), name.isString = false →
      P Unit (ofEval (onProgram (Program.startLoop name limit step)))) :
    P Unit Machine.forStatement := by
  refine h.bind h.nextName fun name => ?_
  dsimp only
  split
  · exact h.fail nofun rfl
  · next hname =>
    have hnumeric : name.isString = false := Bool.eq_false_iff.mpr hname
    refine h.bind (h.expect rfl) fun _ => h.bind h.numberExpression fun start => ?_
    refine h.bind (h.expect rfl) fun _ => h.bind h.numberExpression fun limit => ?_
    have hrest : ∀ step, P Unit (do
        Machine.expectStatementEnd
        setVariable name (.num start)
        Program.startLoop name limit step) := fun step =>
      h.bind h.expectStatementEnd fun _ => h.bind (hset name start hnumeric) fun _ =>
        hstart name limit step hnumeric
    refine h.bind (h.accept rfl) fun found => ?_
    cases found with
    | true => exact h.bind h.numberExpression hrest
    | false => exact hrest 1

theorem nextLoop (h : ExecRules I P) {name : Name}
    (hend : ∀ value, P Float (ofEval (onProgram (Program.endLoop name value))))
    (hset : ∀ x, P Unit (ofEval (setVariable name (.num x)))) : P Unit (Machine.nextLoop name) :=
  h.look (fun _ _ => rfl) fun m _ =>
    h.bind (h.ofExcept (m.lookup name).failsInExpression_number) fun value =>
      h.bind (hend value) hset

theorem nextItem (h : ExecRules I P) (hloop : ∀ name, P Unit (Machine.nextLoop name)) :
    P Bool Machine.nextItem :=
  h.bind h.nextName fun name => h.bind (hloop name) fun _ =>
    h.look (fun _ _ => rfl) fun _ _ => h.pure _

theorem nextStatement (h : ExecRules I P) (hloop : ∀ name, P Unit (Machine.nextLoop name)) :
    P Unit Machine.nextStatement := by
  refine h.look (fun _ _ => rfl) fun m _ => ?_
  dsimp only
  split
  · split
    · exact hloop _
    · exact h.fail nofun rfl
  · exact h.items (h.nextItem hloop)

/-- A `DEF` keeps the place of the body, which is on the line that is executed. -/
theorem defStatement (h : ExecRules I P)
    (hdefine : ∀ m, I m → ∀ (name first : Name) (others : List Name), P Unit (modify fun m' =>
      { m' with functions := m'.functions.insert name ⟨first, others, m.program.location⟩ }))
    (hskip : P Unit (modifyProgram Program.skipStatement)) : P Unit Machine.defStatement := by
  have hrest : P Unit (do
      let name ← Machine.nextName
      Machine.expect (.mark .lparen)
      let first ← Machine.nextName
      let others ← Machine.moreNames (← get).program.rest.length
      Machine.expect (.mark .rparen)
      Machine.expect (.mark .equal)
      let p := (← get).program
      if p.atStatementEnd then Machine.fail .endOfInput
      modify fun m => { m with functions := m.functions.insert name ⟨first, others, p.location⟩ }
      modifyProgram Program.skipStatement) := by
    refine h.bind h.nextName fun name => h.bind (h.expect rfl) fun _ => ?_
    refine h.bind h.nextName fun first => h.look (fun _ _ => rfl) fun m _ => ?_
    refine h.bind (h.moreNames _) fun others => h.bind (h.expect rfl) fun _ => ?_
    refine h.bind (h.expect rfl) fun _ => h.look (fun _ _ => rfl) fun m hm => ?_
    dsimp only
    split
    · exact h.fail nofun rfl
    · exact h.bind (hdefine m hm name first others) fun _ => hskip
  refine h.look (fun _ _ => rfl) fun m _ => ?_
  dsimp only
  split
  · exact h.fail nofun rfl
  · exact hrest

theorem readItem (h : ExecRules I P)
    (hdatum : P (Value × Nat) (ofEval (onProgram Program.nextDatum)))
    (hmismatch : ∀ line, P Bool (Machine.fail (.dataTypeMismatch line))) :
    P Bool Machine.readItem := by
  refine h.bind h.target fun t => h.bind hdatum fun datum => ?_
  have hstore : ∀ v, P Bool (do Machine.assign t v; return true) := fun v =>
    h.bind (h.assign t v) fun _ => h.pure true
  obtain ⟨field, line⟩ := datum
  dsimp only
  split
  · exact hstore _
  · exact hstore _
  · exact hmismatch line

/-- What comes after a statement is a colon, or an `ELSE` behind which the line is dropped. -/
theorem endStatement (h : ExecRules I P) (hcolon : P Bool (Machine.accept (.mark .colon)))
    (hdiscard : P Unit (modifyProgram Program.discardRest)) : P Unit Machine.endStatement := by
  refine h.look (fun _ _ => rfl) fun m _ => ?_
  dsimp only
  split
  · exact h.pure ()
  · refine h.bind hcolon fun found => ?_
    cases found with
    | true => exact h.pure ()
    | false =>
      rw [if_neg Bool.false_ne_true]
      split
      · exact hdiscard
      · exact h.fail nofun rfl

end ExecRules

/-! ### Every statement -/

/-- A property that goes from the parts of a statement to the whole, and that all parts have. -/
structure StatementRules (I : Machine → Prop) (P : (α : Type) → Exec α → Prop) : Prop
    extends ExecRules I P where
  throw : ∀ {α : Type} (stop : Stop), P α (MonadExcept.throw stop)
  acceptThen : P Bool (Machine.accept (.keyword .THEN))
  skip : ∀ n : Nat, P Unit (modifyProgram (·.skip n))
  skipStatement : P Unit (modifyProgram Program.skipStatement)
  discardRest : P Unit (modifyProgram Program.discardRest)
  restore : P Unit (modifyProgram Program.restore)
  setVariable : ∀ (name : Name) (v : Value), P Unit (ofEval (Machine.setVariable name v))
  setArray : ∀ (name : Name) (g : Grid),
    P Unit (modify fun m => { m with arrays := m.arrays.insert name g })
  define : ∀ m : Machine, I m → ∀ (name first : Name) (others : List Name),
    P Unit (modify fun m' =>
      { m' with functions := m'.functions.insert name ⟨first, others, m.program.location⟩ })
  nextDatum : P (Value × Nat) (ofEval (onProgram Program.nextDatum))
  rewind : P Bool (ofEval (onProgram (Program.rewindBefore (.keyword .INPUT))))
  dropReply : P Unit (modify fun m => { m with reply := none })
  endBranch : ∀ m : Machine, I m → ∀ index,
    P Unit (Machine.endBranch ⟨m.program.location.line, index⟩)
  aloneOnLine : ∀ {statement : Exec Unit}, P Unit statement →
    P Unit (Machine.aloneOnLine statement)
  goTo : ∀ n : Nat, P Unit (ofEval (onProgram (Program.goTo n)))
  gosub : ∀ n : Nat, P Unit (ofEval (onProgram (Program.gosub n)))
  returnFromGosub : P Unit (ofEval (onProgram Program.returnFromGosub))
  startLoop : ∀ (name : Name) (limit step : Float),
    P Unit (ofEval (onProgram (Program.startLoop name limit step)))
  endLoop : ∀ (name : Name) (value : Float),
    P Float (ofEval (onProgram (Program.endLoop name value)))

namespace StatementRules

variable {I : Machine → Prop} {P : (α : Type) → Exec α → Prop}

theorem waits (h : StatementRules I P) (prompt : Bytes) : P Unit (suspend prompt) :=
  h.suspend h.rewind (h.throw _) (h.throw _) prompt

theorem loops (h : StatementRules I P) (name : Name) : P Unit (nextLoop name) :=
  h.nextLoop (h.endLoop name) fun x => h.setVariable name (.num x)

/-- Every statement has the property, by induction on the tokens left: an `IF` executes another
statement further right. -/
theorem statement (h : StatementRules I P) (tokens : Nat) : P Unit (Machine.statement tokens) := by
  induction tokens with
  | zero => exact h.throw _
  | succ tokens ih =>
    refine h.look (fun _ _ => rfl) fun m _ => ?_
    split
    · exact h.throw _
    · exact h.letStatement
    · refine h.bind (h.skip 1) fun _ => ?_
      split
      · exact h.pure ()
      · exact h.pure ()
      · exact h.pure ()
      · exact h.discardRest
      · exact h.letStatement
      · exact h.dimStatement (h.dimItem h.setArray)
      · exact h.printStatement
      · exact h.printStatement
      · exact h.inputStatement h.dropReply h.endBranch h.waits
      · exact h.ifStatement (h.chooseBranch h.acceptThen (h.skipBranch h.skip h.discardRest))
          (h.branch h.goTo (h.aloneOnLine ih))
      · exact h.gotoStatement h.goTo
      · exact h.gosubStatement h.gosub
      · exact h.returnFromGosub
      · exact h.throw _
      · exact h.throw _
      · exact h.forStatement (fun name x _ => h.setVariable name (.num x))
          fun name limit step _ => h.startLoop name limit step
      · exact h.nextStatement h.loops
      · exact h.restore
      · exact h.defStatement h.define h.skipStatement
      · exact h.items (h.readItem h.nextDatum fun _ => h.throw _)
      · exact h.throw _

end StatementRules

end LineBasic
