import LineBasic.Proofs.Machine.Action

/-!
# Calling a function and returning from it

A call leaves the line of its caller and comes back to it. It comes back to exactly the place that
it left because, while a line is executed, the tokens that are executed are those of the line.

## Main definitions

* `Program.Synced` — the tokens being executed are those of the line
* `Program.atIndex` — a program at another place of its line
* `Machine.inside` — a machine inside a function

## Main results

* `Machine.pushFunction_inside`, `Machine.pushFunction_overflow` — a call
* `Machine.popFunction_inside` — the return from it, wherever the body was left
-/

namespace LineBasic

namespace Program

/-- The tokens being executed are those of the line that the location is on. -/
def Synced (p : Program) : Prop :=
  p.tokensOf? p.location.line = some p.current

/-- A program at another place of its line. -/
def atIndex (p : Program) (i : Nat) : Program :=
  { p with location.index := i }

/-- A place of the line that exists is moved to as it is. -/
theorem moveTo?_eq {p : Program} {loc : Location} {tokens : List Token}
    (h : p.tokensOf? loc.line = some tokens) (hindex : loc.index ≤ tokens.length) :
    p.moveTo? loc = some { p with location := loc, current := tokens } := by
  rw [moveTo?, h, Option.map_some, Nat.min_eq_left hindex]

/-- Wherever a program moves to, the tokens are those of the line. -/
theorem synced_of_moveTo? {p p' : Program} {loc : Location} (h : p.moveTo? loc = some p') :
    p'.Synced := by
  obtain ⟨tokens, htokens, rfl⟩ := Option.map_eq_some_iff.mp h
  exact htokens

end Program

namespace Machine

/-- The machine inside a function: the call is pending, and the location is at the body. -/
def inside (m : Machine) (params : Bindings) (body : Location) (tokens : List Token) : Machine :=
  { m with
    program :=
      { m.program with
        calls := .function m.program.location params :: m.program.calls
        location := body
        current := tokens } }

/-- Inside a function one call less may nest. -/
theorem callsLeft_inside {m : Machine} {d : Nat} (h : m.callsLeft = d + 1) (params : Bindings)
    (body : Location) (tokens : List Token) : (m.inside params body tokens).callsLeft = d := by
  simp only [callsLeft, inside, List.length_cons] at h ⊢
  omega

theorem pushFunction_overflow {m : Machine} (h : m.callsLeft = 0) (params : Bindings)
    (body : Location) :
    onProgram (Program.pushFunction params body) m = .error .stackOverflow m := by
  have hfull : m.program.maxCalls ≤ m.program.calls.length := by
    simp only [callsLeft] at h
    omega
  simp [onProgram, Program.pushFunction, Program.pushFrame, hfull]

theorem pushFunction_inside {m : Machine} {d : Nat} (h : m.callsLeft = d + 1) (params : Bindings)
    {body : Location} {tokens : List Token} (htokens : m.program.tokensOf? body.line = some tokens)
    (hindex : body.index ≤ tokens.length) :
    onProgram (Program.pushFunction params body) m = .ok () (m.inside params body tokens) := by
  have hroom : ¬ m.program.maxCalls ≤ m.program.calls.length := by
    simp only [callsLeft] at h
    omega
  have hmove : ∀ calls, ({ m.program with calls } : Program).moveTo? body =
      some { m.program with calls, location := body, current := tokens } :=
    fun calls => Program.moveTo?_eq (p := { m.program with calls }) htokens hindex
  simp only [onProgram, Program.pushFunction, Program.pushFrame, if_neg hroom, hmove]
  rfl

/-- A function returns to where it was called, wherever in its line it is left. -/
theorem popFunction_inside {m m' : Machine} (hsynced : m.program.Synced)
    (hindex : m.program.location.index ≤ m.program.current.length) {params : Bindings}
    {body : Location} {tokens : List Token} {i : Nat}
    (h : m'.program = (m.inside params body tokens).program.atIndex i) :
    onProgram Program.popFunction m' = .ok () { m' with program := m.program } := by
  -- the caller's line is looked up in the stored lines, which are those from before the call
  have htokens : ∀ location current, ({ m.program with location, current } : Program).tokensOf?
      m.program.location.line = some m.program.current := fun _ _ => hsynced
  simp only [onProgram, Program.popFunction, h, Program.atIndex, inside, Program.moveTo?, htokens,
    Option.map_some, Nat.min_eq_left hindex]

end Machine

end LineBasic
