import LineBasic.Proofs.Machine.Breakpoint
import LineBasic.Proofs.Machine.RewordExpr
import LineBasic.Proofs.Program.Data

/-!
# A statement in other words

A statement of a line is replaced by other tokens that start with the same word and the same name.
The places behind it move along with their tokens: pending calls and loops, the breakpoint and the
bodies of functions point to the same tokens as before. Everything else is left as it is.

No function has its body inside the statement, because there is a `DEF` in front of each body, with
no other statement in between. So the bodies of all functions are read as before: those behind the
statement have the same tokens, and reading a body in front of it gets no further than the word that
the statement starts with.

## Main definitions

* `Rewording` — a statement of a line, and other words for it
* `Program.reworded`, `Machine.reworded` — a machine with the other words on its line
* `Machine.Rewords` — a machine that is another one with other words, at some place of the line

## Main results

* `Program.moveTo?_reworded`, `Program.advance?_reworded`, `Program.data_reworded` — moving and the
  data
* `Machine.Reachable.readsBodies` — bodies of functions are read as before
* `Machine.Rewords.kin` — expressions have the same value
* `Machine.Reachable.startImmediate_reworded` — a line that is entered in other words
-/

namespace LineBasic

open LineBasic.Expr

/-- A statement of a line, which starts with a word and a name, and other words for what comes
behind the name. The other words are not fewer, and like the old ones they are no data. -/
structure Rewording where
  line : Line
  before : List Token
  word : Keyword
  name : Name
  old : List Token
  new : List Token
  after : List Token
  starts : (Token.keyword word).isInner = false
  defines : word ≠ .DEF
  inside : ∀ t ∈ old, t.isInner = true
  length_le : old.length ≤ new.length
  noData : ∀ values, Token.data values ∉ new

namespace Rewording

variable (y : Rewording)

/-- The line with the old words. -/
def oldText : List Token :=
  y.before ++ .keyword y.word :: .symbol y.name :: (y.old ++ y.after)

/-- The line with the new words. -/
def newText : List Token :=
  y.before ++ .keyword y.word :: .symbol y.name :: (y.new ++ y.after)

/-- Where the old words end. -/
def stop : Nat :=
  y.before.length + 2 + y.old.length

/-- A place of the line with the old words, on the line with the new ones. -/
def index (i : Nat) : Nat :=
  if y.stop ≤ i then i - y.old.length + y.new.length else i

/-- A place of the program. -/
def place (loc : Location) : Location :=
  ⟨loc.line, if loc.line = y.line then y.index loc.index else loc.index⟩

/-- The tokens of a line. -/
def text (line : Line) (tokens : List Token) : List Token :=
  if line = y.line then y.newText else tokens

/-- A pending call. -/
def frame : Frame → Frame
  | .gosub ret => .gosub (y.place ret)
  | .function ret params => .function (y.place ret) params

/-- A pending loop. -/
def loop (l : Loop) : Loop :=
  { l with resume := y.place l.resume }

/-- A function. -/
def function (f : Function) : Function :=
  { f with body := y.place f.body }

end Rewording

/-- A program with other words on one of its lines. -/
def Program.reworded (p : Program) (y : Rewording) : Program :=
  { p with
    lines := p.lines.map fun n tokens => y.text (.numbered n) tokens
    immediate := y.text .immediate p.immediate
    location := y.place p.location
    current := y.text p.location.line p.current
    calls := p.calls.map y.frame
    loops := p.loops.map y.loop
    breakpoint := p.breakpoint.map y.place }

/-- A machine with other words on one of its lines. -/
def Machine.reworded (m : Machine) (y : Rewording) : Machine :=
  { m with
    program := m.program.reworded y
    functions := m.functions.map fun _ f => y.function f
    branchInput := m.branchInput.map y.place }

/-! ### Places -/

namespace Rewording

variable {y : Rewording} {i : Nat} {loc : Location} {tokens : List Token}

theorem length_oldText (y : Rewording) : y.oldText.length = y.stop + y.after.length := by
  simp only [oldText, stop, List.length_append, List.length_cons]
  omega

theorem length_newText (y : Rewording) :
    y.newText.length + y.old.length = y.oldText.length + y.new.length := by
  simp only [oldText, newText, List.length_append, List.length_cons]
  omega

/-- The end of a line is its end. -/
theorem min_index (y : Rewording) (i : Nat) :
    min (y.index i) y.newText.length = y.index (min i y.oldText.length) := by
  have hold := y.length_oldText
  have hnew := y.length_newText
  have hle := y.length_le
  have hstop : y.old.length ≤ y.stop := Nat.le_add_left _ _
  simp only [index]
  split <;> split <;> omega

theorem index_lt (h : i < y.oldText.length) : y.index i < y.newText.length := by
  have hold := y.length_oldText
  have hnew := y.length_newText
  have hle := y.length_le
  have hstop : y.old.length ≤ y.stop := Nat.le_add_left _ _
  rw [index]
  split <;> omega

theorem index_length (y : Rewording) : y.index y.oldText.length = y.newText.length := by
  have hmin := y.min_index y.oldText.length
  have hold := y.length_oldText
  have hnew := y.length_newText
  have hstop : y.old.length ≤ y.stop := Nat.le_add_left _ _
  rw [index, if_pos (by omega)]
  omega

theorem text_eq {line : Line} (h : tokens = y.oldText ∨ line ≠ y.line) (i : Nat) :
    min (y.place ⟨line, i⟩).index (y.text line tokens).length =
      (y.place ⟨line, min i tokens.length⟩).index := by
  by_cases hline : line = y.line
  · obtain rfl := h.resolve_right (absurd hline)
    simp only [place, text, if_pos hline, min_index]
  · simp only [place, text, if_neg hline]

/-- A place that is on another line or not to the right of the statement stays the same. -/
theorem place_of_le (h : loc.line = y.line → loc.index ≤ y.before.length) : y.place loc = loc := by
  rw [place]
  split
  · next hline =>
    have hstop : ¬ y.stop ≤ loc.index := by
      have hindex := h hline
      rw [stop]
      omega
    rw [index, if_neg hstop]
  · rfl

/-- Places on stored lines stay the same if the line entered is the one in other words. -/
theorem place_of_stored (hline : y.line = .immediate) (loc : Location)
    (hloc : loc.line ≠ .immediate) : y.place loc = loc :=
  y.place_of_le fun hon => absurd (hon.trans hline) hloc

end Rewording

/-! ### Moving, and the data -/

namespace Program

variable {p : Program} {y : Rewording}

/-- The line is there, with the old words. -/
def Has (p : Program) (y : Rewording) : Prop :=
  p.tokensOf? y.line = some y.oldText

theorem tokensOf?_reworded (p : Program) (y : Rewording) (line : Line) :
    (p.reworded y).tokensOf? line = (p.tokensOf? line).map (y.text line) := by
  cases line with
  | immediate => rfl
  | numbered n => exact Std.ExtTreeMap.getElem?_map

theorem Has.eq_or_ne (h : p.Has y) {line : Line} {tokens : List Token}
    (htokens : p.tokensOf? line = some tokens) : tokens = y.oldText ∨ line ≠ y.line := by
  by_cases hline : line = y.line
  · rw [hline] at htokens
    exact .inl (Option.some.inj (htokens.symm.trans h))
  · exact .inr hline

theorem Synced.reworded (h : p.Synced) (y : Rewording) : (p.reworded y).Synced := by
  rw [Synced, tokensOf?_reworded]
  exact congrArg (Option.map (y.text p.location.line)) h

/-- Moving to a place is moving to where it is now. -/
theorem moveTo?_reworded (h : p.Has y) (loc : Location) :
    (p.reworded y).moveTo? (y.place loc) = (p.moveTo? loc).map (·.reworded y) := by
  rw [moveTo?, tokensOf?_reworded, moveTo?]
  change ((p.tokensOf? loc.line).map (y.text loc.line)).map _ = _
  cases htokens : p.tokensOf? loc.line with
  | none => rfl
  | some tokens =>
    have hindex := Rewording.text_eq (h.eq_or_ne htokens) loc.index
    simp only [Option.map_some]
    rw [hindex]
    rfl

/-- The start of a line stays its start. -/
theorem place_start (y : Rewording) (line : Line) : y.place line.start = line.start :=
  Rewording.place_of_le fun _ => Nat.zero_le _

/-- The next line is the same one. -/
theorem advance?_reworded (h : p.Has y) :
    (p.reworded y).advance? = p.advance?.map (·.reworded y) := by
  cases hline : p.location.line with
  | immediate =>
    have hline' : (p.reworded y).location.line = .immediate := hline
    rw [advance?, advance?, hline, hline']
    rfl
  | numbered n =>
    have hline' : (p.reworded y).location.line = .numbered n := hline
    have hkey : (p.reworded y).lines.getKeyGT? n = p.lines.getKeyGT? n := by
      rw [getKeyGT?_eq_find?, getKeyGT?_eq_find?]
      change ((p.lines.map fun n tokens => y.text (.numbered n) tokens).toList.find? _).map _ = _
      rw [Std.ExtTreeMap.toList_map, List.find?_map, Option.map_map]
      rfl
    rw [advance?, advance?, hline, hline']
    change ((p.reworded y).lines.getKeyGT? n).bind _ = ((p.lines.getKeyGT? n).bind _).map _
    rw [hkey]
    cases p.lines.getKeyGT? n with
    | none => rfl
    | some k =>
      have hmove := moveTo?_reworded h (Line.numbered k).start
      rwa [place_start] at hmove

/-- The words are no data. -/
theorem fields_text (y : Rewording) (n : Nat) : fields n y.newText = fields n y.oldText := by
  have hfields : ∀ ts : List Token, (∀ values, Token.data values ∉ ts) → fields n ts = [] := by
    intro ts hts
    refine List.flatMap_eq_nil_iff.mpr fun t ht => ?_
    cases t with
    | data values => exact absurd ht (hts values)
    | _ => rfl
  have happend : ∀ ts us : List Token, fields n (ts ++ us) = fields n ts ++ fields n us :=
    fun _ _ => List.flatMap_append
  have hold := hfields y.old fun values hmem => by cases y.inside _ hmem
  have hnew := hfields y.new y.noData
  have hhead : ∀ ts : List Token,
      fields n (.keyword y.word :: .symbol y.name :: ts) = fields n ts := fun _ => rfl
  rw [Rewording.newText, Rewording.oldText]
  simp only [happend, hhead, hold, hnew]

theorem data_reworded (h : p.Has y) : (p.reworded y).data = p.data := by
  change fieldsOf (p.lines.map fun n tokens => y.text (.numbered n) tokens).toList =
    fieldsOf p.lines.toList
  rw [Std.ExtTreeMap.toList_map, fieldsOf, fieldsOf, List.flatMap_map]
  refine List.flatMap_congr fun e he => ?_
  have htokens : p.tokensOf? (.numbered e.1) = some e.2 :=
    Std.ExtTreeMap.mem_toList_iff_getElem?_eq_some.mp he
  dsimp only
  rw [Rewording.text]
  split
  · next hline =>
    obtain heq := (h.eq_or_ne htokens).resolve_right (absurd hline)
    rw [fields_text, heq]
  · rfl

end Program

/-! ### Bodies of functions -/

namespace Machine

variable {o : Options} {m : Machine} {y : Rewording}

/-- In front of the body of each function stands its `DEF`. -/
theorem Reachable.followsDef (h : Reachable o m) :
    ∀ (name : Name) (f : Function), m.functions[name]? = some f →
      m.program.Shows FollowsDef f.body := by
  refine h.induction_remembered (P := fun m => ∀ (name : Name) (f : Function),
    m.functions[name]? = some f → m.program.Shows FollowsDef f.body) ?_ ?_ ?_
  · intro name f hf
    rw [show (new o).functions = ∅ from rfl, Std.ExtTreeMap.getElem?_empty] at hf
    cases hf
  · intro m m' ih hkept name f hf
    exact ((hkept.heads name f hf).elim (ih name f) id).congr hkept.lines
  · intro m n tokens ih name f hf
    rw [enter_functions] at hf
    obtain ⟨hold, hother⟩ := functions_storeLine n tokens hf
    obtain ⟨k, ts, hline, hts, hshows⟩ := ih name f hold
    have hk : n ≠ k := by
      rintro rfl
      exact hother hline
    rw [enter_program]
    exact ⟨k, ts, hline, (Program.getElem?_store_of_ne _ _ hk).trans hts, hshows⟩

/-- The bodies of all functions are read as before. -/
def ReadsBodies (m : Machine) (y : Rewording) : Prop :=
  ∀ (name : Name) (f : Function), m.functions[name]? = some f →
    ∀ tokens, m.program.tokensOf? f.body.line = some tokens →
      ReadsAlike (tokens.drop f.body.index)
        ((y.text f.body.line tokens).drop (y.place f.body).index)

end Machine

/-- A place behind a `DEF`, with no other statement in between, is not inside the statement. -/
theorem Rewording.outside {y : Rewording} {i : Nat} (h : FollowsDef y.oldText i) :
    i ≤ y.before.length ∨ y.stop ≤ i := by
  obtain ⟨k, hk, hdef, hinside⟩ := h
  by_contra hout
  have hword : y.oldText[y.before.length]? = some (.keyword y.word) := by
    simp [oldText]
  rcases Nat.lt_trichotomy k y.before.length with hlt | heq | hlt
  · have hinner := hinside _ _ (by omega) (by omega) hword
    rw [y.starts] at hinner
    cases hinner
  · rw [heq, hword] at hdef
    exact y.defines (Token.keyword.inj (Option.some.inj hdef))
  · obtain ⟨j, rfl⟩ := Nat.exists_eq_add_of_lt hlt
    rw [stop] at hout
    have hinner : ∀ t ∈ Token.symbol y.name :: y.old, t.isInner = true :=
      List.forall_mem_cons.mpr ⟨rfl, y.inside⟩
    have hmem : Token.keyword .DEF ∈ Token.symbol y.name :: y.old := by
      rw [oldText, List.getElem?_append_right (by omega)] at hdef
      rw [show y.before.length + j + 1 - y.before.length = j + 1 by omega, List.getElem?_cons_succ,
        ← List.cons_append,
        List.getElem?_append_left (by simp only [List.length_cons]; omega)] at hdef
      exact List.mem_of_getElem? hdef
    cases hinner _ hmem

theorem Rewording.drop_before {y : Rewording} {i : Nat} (h : i ≤ y.before.length) :
    y.oldText.drop i =
        y.before.drop i ++ .keyword y.word :: .symbol y.name :: (y.old ++ y.after) ∧
      y.newText.drop i =
        y.before.drop i ++ .keyword y.word :: .symbol y.name :: (y.new ++ y.after) :=
  ⟨List.drop_append_of_le_length h, List.drop_append_of_le_length h⟩

/-- Behind the statement the tokens are the same. -/
theorem Rewording.drop_index {y : Rewording} {i : Nat} (h : y.stop ≤ i) :
    y.newText.drop (y.index i) = y.oldText.drop i := by
  obtain ⟨j, rfl⟩ := Nat.exists_eq_add_of_le h
  have hold : y.oldText = (y.before ++ .keyword y.word :: .symbol y.name :: y.old) ++ y.after := by
    simp [oldText]
  have hnew : y.newText = (y.before ++ .keyword y.word :: .symbol y.name :: y.new) ++ y.after := by
    simp [newText]
  rw [index, if_pos h, hold, hnew, stop]
  have hleft : y.before.length + 2 + y.old.length + j =
      (y.before ++ .keyword y.word :: .symbol y.name :: y.old).length + j := by
    simp only [List.length_append, List.length_cons]
    omega
  have hright : y.before.length + 2 + y.old.length + j - y.old.length + y.new.length =
      (y.before ++ .keyword y.word :: .symbol y.name :: y.new).length + j := by
    simp only [List.length_append, List.length_cons]
    omega
  rw [hright, hleft, ← List.drop_drop, ← List.drop_drop, List.drop_left, List.drop_left]

/-- What is read from a place that is not inside the statement is the same. -/
theorem Rewording.readsAlike {y : Rewording} {i : Nat} (h : FollowsDef y.oldText i) :
    ReadsAlike (y.oldText.drop i) (y.newText.drop (y.index i)) := by
  rcases outside h with hbefore | hbehind
  · have hstop : ¬ y.stop ≤ i := by
      rw [stop]
      omega
    obtain ⟨hold, hnew⟩ := drop_before hbefore
    rw [index, if_neg hstop, hold, hnew]
    have hleft := Expr.parseAt_word y.starts y.name 0 (y.before.drop i) (y.old ++ y.after)
    have hright := Expr.parseAt_word y.starts y.name 0 (y.before.drop i) (y.new ++ y.after)
    exact ⟨hright.1.trans hleft.1.symm, hright.2.trans hleft.2.symm⟩
  · rw [drop_index hbehind]
    exact .refl _

/-- The bodies of all functions are read as before. -/
theorem Machine.Reachable.readsBodies {o : Options} {m : Machine} {y : Rewording}
    (h : Reachable o m) (hhas : m.program.Has y) : m.ReadsBodies y := by
  intro name f hf tokens htokens
  obtain ⟨n, ts, hline, hts, hshows⟩ := h.followsDef name f hf
  have hsame : ts = tokens := by
    rw [hline] at htokens
    exact Option.some.inj (hts.symm.trans htokens)
  rw [hsame] at hshows
  by_cases hy : f.body.line = y.line
  · rw [(hhas.eq_or_ne htokens).resolve_right (absurd hy)] at hshows ⊢
    simp only [Rewording.text, Rewording.place, if_pos hy]
    exact Rewording.readsAlike hshows
  · simp only [Rewording.text, Rewording.place, if_neg hy]
    exact .refl _

/-! ### A machine in other words -/

namespace Machine

variable {y : Rewording} {s s' t t' : Machine}

/-- `t` is `s` with other words on the line of `y`, at some place of its own line, and whatever was
recorded. -/
structure Rewords (y : Rewording) (s t : Machine) : Prop where
  has : s.program.Has y
  reads : s.ReadsBodies y
  eq : ∃ i log, t = { s.reworded y with program := (s.program.reworded y).atIndex i, log }

/-- What evaluation leaves of a machine. -/
theorem Walked.exists_eq (h : s.Walked s') : ∃ i arrays random lastRandom, s' =
    { s with program := s.program.atIndex i, arrays, random, lastRandom } :=
  ⟨_, _, _, _, h.program ▸ h.same⟩

namespace Rewords

theorem callsLeft (h : Rewords y s t) : t.callsLeft = s.callsLeft := by
  obtain ⟨-, -, i, log, rfl⟩ := h
  exact congrArg (s.program.maxCalls - ·) (List.length_map _)

theorem param? (h : Rewords y s t) (name : Name) :
    t.program.param? name = s.program.param? name := by
  obtain ⟨-, -, i, log, rfl⟩ := h
  change (s.program.calls.map y.frame).findSome? (fun f => f.params[name]?) = _
  rw [List.findSome?_map]
  have hframe : (fun f : Frame => f.params[name]?) ∘ y.frame = fun f => f.params[name]? := by
    funext f
    cases f <;> rfl
  rw [hframe]
  rfl

theorem functions (h : Rewords y s t) (name : Name) :
    t.functions[name]? = s.functions[name]?.map y.function := by
  obtain ⟨-, -, i, log, rfl⟩ := h
  exact Std.ExtTreeMap.getElem?_map

theorem tokensOf? (h : Rewords y s t) (line : Line) :
    t.program.tokensOf? line = (s.program.tokensOf? line).map (y.text line) := by
  obtain ⟨-, -, i, log, rfl⟩ := h
  exact Program.tokensOf?_reworded s.program y line

theorem line (h : Rewords y s t) : t.program.location.line = s.program.location.line := by
  obtain ⟨-, -, i, log, rfl⟩ := h
  rfl

theorem current (h : Rewords y s t) :
    t.program.current = y.text s.program.location.line s.program.current := by
  obtain ⟨-, -, i, log, rfl⟩ := h
  rfl

theorem jumped (h : Rewords y s t) : t.program.jumped = s.program.jumped := by
  obtain ⟨-, -, i, log, rfl⟩ := h
  rfl

theorem state (h : Rewords y s t) : t.state = s.state := by
  obtain ⟨-, -, i, log, rfl⟩ := h
  rfl

theorem tracing (h : Rewords y s t) : t.tracing = s.tracing := by
  obtain ⟨-, -, i, log, rfl⟩ := h
  rfl

theorem synced (h : Rewords y s t) (hs : s.program.Synced) : t.program.Synced := by
  obtain ⟨-, -, i, log, rfl⟩ := h
  exact hs.reworded y

/-- A place of a line is still a place of the line. -/
theorem place_le (h : Rewords y s t) {loc : Location} {tokens : List Token}
    (htokens : s.program.tokensOf? loc.line = some tokens) (hindex : loc.index ≤ tokens.length) :
    (y.place loc).index ≤ (y.text loc.line tokens).length := by
  have hmin := Rewording.text_eq (h.has.eq_or_ne htokens) loc.index
  rw [Nat.min_eq_left hindex] at hmin
  exact Nat.le_trans (Nat.le_of_eq hmin.symm) (Nat.min_le_right _ _)

theorem fit (h : Rewords y s t) (hs : s.Fit s.functions s.callsLeft) :
    t.Fit t.functions s.callsLeft where
  functions := rfl
  synced := h.synced hs.synced
  bodies name g hg := by
    rw [h.functions, Option.map_eq_some_iff] at hg
    obtain ⟨f, hf, rfl⟩ := hg
    obtain ⟨tokens, htokens, hindex⟩ := hs.bodies name f hf
    refine ⟨y.text f.body.line tokens, ?_, h.place_le htokens hindex⟩
    rw [h.tokensOf?]
    exact congrArg (Option.map (y.text f.body.line)) htokens
  callsLeft := h.callsLeft

/-- Expressions have the same value on both machines. -/
theorem kin (h : Rewords y s t) (hs : s.Fit s.functions s.callsLeft) :
    s.Kin s.functions t.functions s.callsLeft t where
  left := hs
  right := h.fit hs
  toEven := by
    obtain ⟨-, -, i, log, rfl⟩ := h
    exact ⟨rfl, rfl, rfl⟩
  maxElements := by
    obtain ⟨-, -, i, log, rfl⟩ := h
    rfl
  scalars := by
    obtain ⟨-, -, i, log, rfl⟩ := h
    rfl
  params := h.param?
  undefined name hname := by rw [h.functions, hname, Option.map_none]
  bodies name f hf := by
    refine ⟨y.function f, by rw [h.functions, hf, Option.map_some], rfl, fun ts us hts hus => ?_⟩
    have htext : us = y.text f.body.line ts := by
      have hline : t.program.tokensOf? f.body.line = some us := hus
      rw [h.tokensOf?, hts] at hline
      exact (Option.some.inj hline).symm
    rw [htext]
    exact h.reads name f hf ts hts

/-- What evaluation changes, it changes on both machines alike. -/
theorem walked (h : Rewords y s t) (hs : s.Walked s') (ht : t.Walked t') (heven : s'.Even t') :
    Rewords y s' t' := by
  obtain ⟨i, arrays, random, lastRandom, rfl⟩ := hs.exists_eq
  obtain ⟨i', arrays', random', lastRandom', rfl⟩ := ht.exists_eq
  obtain ⟨hhas, hreads, j, log, rfl⟩ := h
  obtain ⟨harrays, hrandom, hlastRandom⟩ := heven
  dsimp only at harrays hrandom hlastRandom
  subst harrays hrandom hlastRandom
  exact ⟨hhas, hreads, i', log, rfl⟩

end Rewords

end Machine

/-! ### A line that is entered in other words -/

/-- Nothing that is kept when a line is entered points into the line that was there before. -/
theorem Program.setImmediate_reworded {p : Program} {y : Rewording} (hline : y.line = .immediate)
    (hbreakpoint : ∀ loc, p.breakpoint = some loc → loc.line ≠ .immediate) :
    (p.setImmediate y.oldText).reworded y = p.setImmediate y.newText := by
  have hlines : (p.lines.map fun n tokens => y.text (.numbered n) tokens) = p.lines := by
    refine Std.ExtTreeMap.ext_getElem? fun n => ?_
    rw [Std.ExtTreeMap.getElem?_map]
    have htext : (fun tokens => y.text (.numbered n) tokens) = id := by
      funext tokens
      rw [Rewording.text, hline, if_neg (by simp)]
      rfl
    rw [htext, Option.map_id]
    rfl
  have hcalls : (numberedPart Frame.ret p.calls).map y.frame = numberedPart Frame.ret p.calls := by
    refine (List.map_congr_left fun f hf => ?_).trans (List.map_id _)
    have hret := y.place_of_stored hline f.ret (isNumbered_of_mem_numberedPart hf)
    cases f with
    | gosub ret => exact congrArg Frame.gosub hret
    | function ret params => exact congrArg (Frame.function · params) hret
  have hloops : (numberedPart Loop.resume p.loops).map y.loop =
      numberedPart Loop.resume p.loops := by
    refine (List.map_congr_left fun l hl => ?_).trans (List.map_id _)
    have hresume := y.place_of_stored hline l.resume (isNumbered_of_mem_numberedPart hl)
    rw [Rewording.loop, hresume]
    rfl
  have hbreak : p.breakpoint.map y.place = p.breakpoint := by
    cases hloc : p.breakpoint with
    | none => rfl
    | some loc => rw [Option.map_some, y.place_of_stored hline loc (hbreakpoint loc hloc)]
  have htext : ∀ tokens, y.text .immediate tokens = y.newText := fun tokens => by
    rw [Rewording.text, if_pos hline.symm]
  simp only [setImmediate, reworded, hlines, hcalls, hloops, hbreak, htext]
  congr 1
  exact place_start y .immediate

theorem Machine.reworded_enter (m : Machine) (y : Rewording) (s : State) :
    (m.enter s).reworded y = (m.reworded y).enter s := by
  have hstate : (m.reworded y).state = m.state := rfl
  rw [enter, enter, hstate]
  split <;> rfl

/-- A line that is entered with the old words and then reworded is the line entered with the new
words. -/
theorem Machine.Reachable.startImmediate_reworded {o : Options} {m : Machine} {y : Rewording}
    (hm : Reachable o m) (hline : y.line = .immediate) :
    (m.startImmediate y.oldText).reworded y = m.startImmediate y.newText := by
  -- bodies, branches and breakpoints are on stored lines
  have hfunctions : (m.functions.map fun _ f => y.function f) = m.functions := by
    refine Std.ExtTreeMap.ext_getElem? fun name => ?_
    rw [Std.ExtTreeMap.getElem?_map]
    cases hf : m.functions[name]? with
    | none => rfl
    | some f =>
      obtain ⟨n, tokens, hbody, -⟩ := hm.sound.bodies name f hf
      rw [Option.map_some, Rewording.function,
        y.place_of_stored hline f.body (by simp [hbody])]
  have hbranch : (m.branchInput.filter (·.line.isNumbered)).map y.place =
      m.branchInput.filter (·.line.isNumbered) := by
    cases hloc : m.branchInput.filter (·.line.isNumbered) with
    | none => rfl
    | some loc =>
      have hnumbered := (Option.filter_eq_some_iff.mp hloc).2
      rw [Option.map_some, y.place_of_stored hline loc fun himmediate => ?_]
      rw [himmediate] at hnumbered
      cases hnumbered
  have hbreakpoint : ∀ loc, m.program.breakpoint = some loc → loc.line ≠ .immediate := by
    intro loc hloc
    obtain ⟨n, tokens, hnumbered, -⟩ := hm.current.breakpoint loc hloc
    simp [hnumbered]
  have hprogram := Program.setImmediate_reworded hline hbreakpoint
  rw [startImmediate, startImmediate, reworded_enter, reworded]
  dsimp only
  rw [hprogram, hfunctions, hbranch]
end LineBasic
