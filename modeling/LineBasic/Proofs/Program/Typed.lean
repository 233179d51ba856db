import LineBasic.Proofs.Expr.Typed
import LineBasic.Proofs.Machine.Action
import LineBasic.Proofs.Program.Shown

/-!
# Typed arguments

The arguments of pending calls have the types of their parameters. Calls are added by `GOSUB`, which
has no arguments, and by calls of functions; everything else can only drop some. None of these
actions fails for a reason that names a line.

## Main definitions

* `Program.Typed` — all pending calls have typed arguments
* `Cause.Unnamed`, `Stop.Unnamed` — the reasons to stop that name no line by themselves
* `Yields` — an action keeps a property, and its results have another

## Main results

* `Program.keepsTyped_pushFunction`, `Program.keepsTyped_popFunction` — calling a function and
  returning from it
* `Program.keepsTyped_gosub`, `Program.keepsTyped_endLoop` and others — the transfers of control
-/

namespace LineBasic

/-- All pending calls have typed arguments. -/
def Program.Typed (p : Program) : Prop :=
  ∀ f ∈ p.calls, f.params.Typed

/-! ### Reasons to stop -/

/-- A cause that names no line by itself. -/
def Cause.Unnamed (c : Cause) : Prop :=
  c.ownLine = none

/-- A stop that names no line by itself. -/
def Stop.Unnamed : Stop → Prop
  | .fault c => c.Unnamed
  | .signal _ => True

theorem Cause.unnamed_of_inExpression {c : Cause} (h : c.inExpression = true) : c.Unnamed := by
  cases c <;> first | rfl | cases h

/-! ### Actions and their results -/

section Yields

variable {ε σ α β : Type} {P : σ → Prop} {B B' : ε → Prop} {Q : α → Prop} {R : β → Prop}

/-- An action keeps `P`, stops only for the reasons in `B`, and its results have `Q`. -/
def Yields (P : σ → Prop) (B : ε → Prop) (Q : α → Prop) (x : EStateM ε σ α) : Prop :=
  ∀ s, P s → Concludes (fun a s' => P s' ∧ Q a) (fun e s' => P s' ∧ B e) (x s)

theorem Keeps.mono {x : EStateM ε σ α} (h : Keeps P B x) (hB : ∀ e, B e → B' e) : Keeps P B' x :=
  fun s hs => (h s hs).mono (fun _ _ h => h) fun _ _ h => ⟨h.1, hB _ h.2⟩

/-- What is known of a result may be used afterwards. -/
theorem Keeps.bind_of_yields {x : EStateM ε σ α} {f : α → EStateM ε σ β} (hx : Yields P B Q x)
    (hf : ∀ a, Q a → Keeps P B (f a)) : Keeps P B (x >>= f) :=
  fun s hs => (hx s hs).bind fun a s' h => hf a h.2 s' h.1

namespace Yields

theorem keeps {x : EStateM ε σ α} (h : Yields P B Q x) : Keeps P B x :=
  fun s hs => (h s hs).mono (fun _ _ h => h.1) fun _ _ h => h

theorem mono {Q' : α → Prop} {x : EStateM ε σ α} (h : Yields P B Q x) (hQ : ∀ a, Q a → Q' a) :
    Yields P B Q' x :=
  fun s hs => (h s hs).mono (fun _ _ h => ⟨h.1, hQ _ h.2⟩) fun _ _ h => h

theorem bind {x : EStateM ε σ α} {f : α → EStateM ε σ β} (hx : Yields P B Q x)
    (hf : ∀ a, Q a → Yields P B R (f a)) : Yields P B R (x >>= f) :=
  fun s hs => (hx s hs).bind fun a s' h => hf a h.2 s' h.1

/-- After an action of which nothing but what it keeps is known. -/
theorem andThen {x : EStateM ε σ α} {f : α → EStateM ε σ β} (hx : Keeps P B x)
    (hf : ∀ a, Yields P B R (f a)) : Yields P B R (x >>= f) :=
  fun s hs => (hx s hs).bind fun a s' h => hf a s' h

theorem pure {a : α} (ha : Q a) : Yields P B Q (Pure.pure a : EStateM ε σ α) :=
  fun _ hs => ⟨hs, ha⟩

theorem throw {e : ε} (he : B e) : Yields P B Q (MonadExcept.throw e : EStateM ε σ α) :=
  fun _ hs => ⟨hs, he⟩

theorem get_bind {f : σ → EStateM ε σ α} (hf : ∀ s, P s → Yields P B Q (f s)) :
    Yields P B Q (get >>= f) :=
  fun s hs => hf s hs s hs

end Yields

end Yields

/-! ### Actions of the program -/

namespace Program

variable {α : Type} {p p' : Program}

/-- Calls that come back leave the arguments of the others alone. -/
theorem Typed.of_subset (h : p.Typed) (hcalls : p'.calls ⊆ p.calls) : p'.Typed :=
  fun f hf => h f (hcalls hf)

/-- A call adds its arguments. -/
theorem Typed.cons (h : p.Typed) {f : Frame} (hcalls : p'.calls = f :: p.calls)
    (hf : f.params.Typed) : p'.Typed := by
  intro g hg
  rw [hcalls] at hg
  rcases List.mem_cons.mp hg with rfl | hg
  · exact hf
  · exact h g hg

theorem calls_of_moveTo? {loc : Location} (h : p.moveTo? loc = some p') : p'.calls = p.calls := by
  obtain ⟨tokens, rfl⟩ := moveTo?_eq_some h
  rfl

theorem subset_of_moveTo? {loc : Location} (h : p.moveTo? loc = some p') : p'.calls ⊆ p.calls := by
  rw [calls_of_moveTo? h]
  exact List.Subset.refl _

/-- The reasons for which an action can fail name no line. -/
def Nameless (x : Action α) : Prop :=
  ∀ p, Concludes (fun _ _ => True) (fun c _ => c.Unnamed) (x p)

theorem Nameless.keepsTyped {x : Action α} (h : Nameless x)
    (hcalls : ∀ p, Concludes (fun _ p' => p'.calls ⊆ p.calls) (fun _ p' => p'.calls ⊆ p.calls)
      (x p)) :
    Keeps Program.Typed Cause.Unnamed x := by
  intro p hp
  have hend := hcalls p
  have hcause := h p
  cases hx : x p with
  | ok a p' =>
    rw [hx] at hend
    exact hp.of_subset hend
  | error c p' =>
    rw [hx] at hend hcause
    exact ⟨hp.of_subset hend, hcause⟩

theorem keepsTyped_accept (k : Token.Kind) : Keeps Program.Typed Cause.Unnamed (accept k) := by
  intro p hp
  rw [accept]
  split
  · exact hp
  · exact hp

theorem keepsTyped_expect (k : Token.Kind) : Keeps Program.Typed Cause.Unnamed (expect k) := by
  intro p hp
  rw [expect]
  split
  · exact ⟨hp, rfl⟩
  · split
    · exact hp
    · exact ⟨hp, rfl⟩

theorem keepsTyped_nextName : Keeps Program.Typed Cause.Unnamed nextName := by
  intro p hp
  rw [nextName]
  split
  · exact hp
  · exact ⟨hp, rfl⟩
  · exact ⟨hp, rfl⟩

theorem keepsTyped_rewindBefore (k : Token.Kind) :
    Keeps Program.Typed Cause.Unnamed (rewindBefore k) := by
  intro p hp
  rw [rewindBefore]
  split
  · exact ⟨hp, rfl⟩
  · split
    · next p' hrewind =>
      obtain ⟨i, -, rfl⟩ := Option.map_eq_some_iff.mp hrewind
      exact hp
    · exact hp

theorem keepsTyped_goTo (n : Nat) : Keeps Program.Typed Cause.Unnamed (goTo n) := by
  refine Nameless.keepsTyped (fun p => ?_) fun p =>
    (shedding_goTo n p).mono (fun _ _ h => h.calls) fun _ _ h => h.calls
  rw [goTo]
  split
  · trivial
  · rfl

theorem keepsTyped_gosub (n : Nat) : Keeps Program.Typed Cause.Unnamed (gosub n) := by
  refine .get_bind fun p hp => ?_
  have hcall : Keeps Program.Typed Cause.Unnamed (do pushFrame (.gosub p.location); goTo n) := by
    refine Keeps.bind (fun q hq => ?_) fun _ => keepsTyped_goTo n
    rw [pushFrame]
    split
    · exact ⟨hq, rfl⟩
    · exact hq.cons rfl Bindings.typed_empty
  split
  · exact .bind (.throw rfl) fun _ => hcall
  · exact hcall

theorem keepsTyped_returnFromGosub : Keeps Program.Typed Cause.Unnamed returnFromGosub := by
  refine Nameless.keepsTyped (fun p => ?_) fun p =>
    (shedding_returnFromGosub p).mono (fun _ _ h => h.calls) fun _ _ h => h.calls
  rw [returnFromGosub]
  split
  · dsimp only
    split
    · trivial
    · rfl
  · rfl

/-- A call adds its arguments. -/
theorem keepsTyped_pushFunction {params : Bindings} (hparams : params.Typed) (body : Location) :
    Keeps Program.Typed Cause.Unnamed (pushFunction params body) := by
  intro p hp
  rw [pushFunction, pushFrame]
  split
  · next hpush =>
    split at hpush
    · cases hpush
      exact ⟨hp, rfl⟩
    · cases hpush
  · next p' hpush =>
    split at hpush
    · cases hpush
    · cases hpush
      split
      · next p'' hmove => exact hp.cons (calls_of_moveTo? hmove) hparams
      · exact ⟨hp, rfl⟩

theorem keepsTyped_popFunction : Keeps Program.Typed Cause.Unnamed popFunction := by
  intro p hp
  rw [popFunction]
  split
  · next ret params calls hcalls =>
    have hreturned : { p with calls }.Typed := hp.of_subset (hcalls ▸ List.subset_cons_self _ _)
    dsimp only
    split
    · next p' hmove => exact hreturned.of_subset (subset_of_moveTo? hmove)
    · exact ⟨hreturned, rfl⟩
  · exact ⟨hp, rfl⟩

theorem keepsTyped_startLoop (name : Name) (limit step : Float) :
    Keeps Program.Typed Cause.Unnamed (startLoop name limit step) := by
  refine Nameless.keepsTyped (fun p => ?_) fun p =>
    (sheds_startLoop name limit step p).mono (fun _ _ h => h.calls) fun _ _ h => h.calls
  obtain ⟨kept, -, -, hstart⟩ := exists_kept name p
  rw [hstart limit step p rfl]
  split
  · rfl
  · trivial

theorem keepsTyped_endLoop (name : Name) (value : Float) :
    Keeps Program.Typed Cause.Unnamed (endLoop name value) := by
  refine Nameless.keepsTyped (fun p => ?_) fun p =>
    (shedding_endLoop name value p).mono (fun _ _ h => h.calls) fun _ _ h => h.calls
  exact endLoop_rule name value rfl (fun _ _ _ => trivial) (fun _ _ _ _ _ => trivial)
    fun _ _ _ => rfl

theorem keepsTyped_nextDatum : Keeps Program.Typed Cause.Unnamed nextDatum := by
  intro p hp
  rw [nextDatum]
  split
  · exact hp
  · exact ⟨hp, rfl⟩

end Program

end LineBasic
