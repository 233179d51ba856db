import LineBasic.Machine.Statement

/-!
# Reasoning about actions

Programs, evaluation and statements are actions on a state that either succeed with a result or
stop, and in both cases leave a state behind. What is proved of an action is proved of both ends at
once: a property that the state had before is there again afterwards, and only certain reasons to
stop occur.

## Main definitions

* `mapEnd` — the end of an action, as seen through a function of the state
* `Concludes` — what holds of the end of an action
* `Keeps` — an action keeps a property, and stops for certain reasons only
* `Together` — two actions that have the same end

## Main results

* `Concludes.bind`, `Keeps.bind`, `Together.bind` — one action after the other
* `Concludes.of_ok`, `Concludes.of_error` — what follows once the end is known
* `Machine.keeps_assign` — storing a value touches only variables
-/

namespace LineBasic

variable {ε σ τ α β : Type}

theorem bind_apply (x : EStateM ε σ α) (f : α → EStateM ε σ β) (s : σ) :
    (x >>= f) s = match x s with
      | .ok a s => f a s
      | .error e s => .error e s := rfl

theorem pure_apply (a : α) (s : σ) : (pure a : EStateM ε σ α) s = .ok a s := rfl

theorem get_apply (s : σ) : (get : EStateM ε σ σ) s = .ok s s := rfl

theorem get_bind_apply (f : σ → EStateM ε σ α) (s : σ) : (get >>= f) s = f s s := rfl

theorem modify_apply (f : σ → σ) (s : σ) : (modify f : EStateM ε σ Unit) s = .ok () (f s) := rfl

theorem throw_apply (e : ε) (s : σ) : (throw e : EStateM ε σ α) s = .error e s := rfl

/-- The end of an action, as seen through a function of the state. -/
def mapEnd (f : σ → τ) : EStateM.Result ε σ α → EStateM.Result ε τ α
  | .ok a s => .ok a (f s)
  | .error e s => .error e (f s)

/-- What holds of the end of an action: `Q` of the result and the state after success, `E` of the
reason and the state after a stop. -/
def Concludes (Q : α → σ → Prop) (E : ε → σ → Prop) : EStateM.Result ε σ α → Prop
  | .ok a s => Q a s
  | .error e s => E e s

namespace Concludes

variable {Q Q' : α → σ → Prop} {R : β → σ → Prop} {E E' : ε → σ → Prop}

theorem mono {r : EStateM.Result ε σ α} (h : Concludes Q E r) (hQ : ∀ a s, Q a s → Q' a s)
    (hE : ∀ e s, E e s → E' e s) : Concludes Q' E' r := by
  cases r with
  | ok a s => exact hQ a s h
  | error e s => exact hE e s h

/-- What holds of the end of an action that has succeeded. -/
theorem of_ok {r : EStateM.Result ε σ α} (h : Concludes Q E r) {a : α} {s : σ} (hr : r = .ok a s) :
    Q a s := by
  rw [hr] at h
  exact h

/-- What holds of the end of an action that has stopped. -/
theorem of_error {r : EStateM.Result ε σ α} (h : Concludes Q E r) {e : ε} {s : σ}
    (hr : r = .error e s) : E e s := by
  rw [hr] at h
  exact h

/-- What is known about an end in two ways. -/
theorem and {r : EStateM.Result ε σ α} (h : Concludes Q E r) (h' : Concludes Q' E' r) :
    Concludes (fun a s => Q a s ∧ Q' a s) (fun e s => E e s ∧ E' e s) r := by
  cases r with
  | ok a s => exact ⟨h, h'⟩
  | error e s => exact ⟨h, h'⟩

theorem bind {x : EStateM ε σ α} {f : α → EStateM ε σ β} {s : σ} (hx : Concludes Q E (x s))
    (hf : ∀ a s', Q a s' → Concludes R E (f a s')) : Concludes R E ((x >>= f) s) := by
  rw [bind_apply]
  cases h : x s with
  | ok a s' =>
    rw [h] at hx
    exact hf a s' hx
  | error e s' =>
    rw [h] at hx
    exact hx

end Concludes

/-- An action keeps `P`, whether it succeeds or stops, and it stops only for the reasons in `B`. -/
def Keeps (P : σ → Prop) (B : ε → Prop) (x : EStateM ε σ α) : Prop :=
  ∀ s, P s → Concludes (fun _ => P) (fun e s' => P s' ∧ B e) (x s)

namespace Keeps

variable {P : σ → Prop} {B : ε → Prop}

theorem bind {x : EStateM ε σ α} {f : α → EStateM ε σ β} (hx : Keeps P B x)
    (hf : ∀ a, Keeps P B (f a)) : Keeps P B (x >>= f) :=
  fun s hs => (hx s hs).bind fun a s' hs' => hf a s' hs'

theorem pure (a : α) : Keeps P B (Pure.pure a : EStateM ε σ α) :=
  fun _ hs => hs

theorem throw {e : ε} (he : B e) : Keeps P B (MonadExcept.throw e : EStateM ε σ α) :=
  fun _ hs => ⟨hs, he⟩

theorem modify {f : σ → σ} (hf : ∀ s, P s → P (f s)) :
    Keeps P B (modify f : EStateM ε σ Unit) :=
  fun s hs => hf s hs

/-- Looking at the state leaves it as it is. -/
theorem get_bind {f : σ → EStateM ε σ α} (hf : ∀ s, P s → Keeps P B (f s)) :
    Keeps P B (get >>= f) :=
  fun s hs => hf s hs s hs

end Keeps

/-- Two actions end together: with the same result or for the same reason. `R` holds of the result
and the two states after success, `E` of the two states after a stop. -/
def Together (R : α → σ → σ → Prop) (E : σ → σ → Prop) :
    EStateM.Result ε σ α → EStateM.Result ε σ α → Prop
  | .ok a s, .ok b t => b = a ∧ R a s t
  | .error e s, .error e' t => e' = e ∧ E s t
  | _, _ => False

namespace Together

variable {R R' : α → σ → σ → Prop} {S : β → σ → σ → Prop} {E E' : σ → σ → Prop}
  {r r' : EStateM.Result ε σ α}

theorem cases (h : Together R E r r') :
    (∃ a s t, r = .ok a s ∧ r' = .ok a t ∧ R a s t) ∨
      ∃ e s t, r = .error e s ∧ r' = .error e t ∧ E s t := by
  cases r with
  | ok a s =>
    cases r' with
    | ok b t =>
      obtain ⟨rfl, hR⟩ := h
      exact .inl ⟨b, s, t, rfl, rfl, hR⟩
    | error e' t => exact h.elim
  | error e s =>
    cases r' with
    | ok b t => exact h.elim
    | error e' t =>
      obtain ⟨rfl, hE⟩ := h
      exact .inr ⟨e', s, t, rfl, rfl, hE⟩

theorem mono (h : Together R E r r') (hR : ∀ a s t, R a s t → R' a s t)
    (hE : ∀ s t, E s t → E' s t) : Together R' E' r r' := by
  rcases h.cases with ⟨a, s, t, rfl, rfl, hend⟩ | ⟨e, s, t, rfl, rfl, hend⟩
  · exact ⟨rfl, hR a s t hend⟩
  · exact ⟨rfl, hE s t hend⟩

/-- What is known about the ends of both actions. -/
theorem and {Q Q' : α → σ → Prop} {B B' : ε → σ → Prop} (h : Together R E r r')
    (hr : Concludes Q B r) (hr' : Concludes Q' B' r') :
    Together (fun a s t => R a s t ∧ Q a s ∧ Q' a t)
      (fun s t => E s t ∧ ∃ e, B e s ∧ B' e t) r r' := by
  rcases h.cases with ⟨a, s, t, rfl, rfl, hend⟩ | ⟨e, s, t, rfl, rfl, hend⟩
  · exact ⟨rfl, hend, hr, hr'⟩
  · exact ⟨rfl, hend, e, hr, hr'⟩

theorem bind {x x' : EStateM ε σ α} {f f' : α → EStateM ε σ β} {s t : σ}
    (hx : Together R E (x s) (x' t))
    (hf : ∀ a s' t', R a s' t' → Together S E (f a s') (f' a t')) :
    Together S E ((x >>= f) s) ((x' >>= f') t) := by
  rw [bind_apply, bind_apply]
  rcases hx.cases with ⟨a, s', t', hxs, hxt, h⟩ | ⟨e, s', t', hxs, hxt, h⟩
  · rw [hxs, hxt]
    exact hf a s' t' h
  · rw [hxs, hxt]
    exact ⟨rfl, h⟩

end Together

namespace Machine

/-- Evaluation as part of execution. -/
theorem concludes_ofEval {x : Eval α} {m : Machine} {Q : α → Machine → Prop}
    {E : Stop → Machine → Prop} (h : Concludes Q (fun c => E (.fault c)) (x m)) :
    Concludes Q E (ofEval x m) := by
  rw [ofEval]
  cases hx : x m with
  | ok a m' =>
    rw [hx] at h
    exact h
  | error c m' =>
    rw [hx] at h
    exact h

theorem keeps_ofEval {x : Eval α} {P : Machine → Prop} {B : Stop → Prop}
    (h : Keeps P (fun c => B (.fault c)) x) : Keeps P B (ofEval x) :=
  fun m hm => concludes_ofEval (h m hm)

/-- A result that does not touch the machine keeps everything. -/
theorem keeps_ofExcept {P : Machine → Prop} (r : Except Cause α) :
    Keeps P (fun _ => True) (ofExcept r) := by
  intro m hm
  cases r with
  | ok a => exact hm
  | error c => exact ⟨hm, trivial⟩

/-- So does a check. -/
theorem keeps_checkFits {P : Machine → Prop} (name : Name) (v : Value) :
    Keeps P (fun _ => True) (checkFits name v) := by
  rw [checkFits]
  split
  · exact .pure ()
  · exact .throw trivial

/-- Storing a value touches only variables. -/
theorem keeps_assign {P : Machine → Prop}
    (hP : ∀ m scalars arrays, P m → P { m with scalars, arrays }) (t : Target) (v : Value) :
    Keeps P (fun _ => True) (assign t v) := by
  refine (keeps_checkFits t.name v).bind fun _ => ?_
  cases t with
  | scalar name => exact .modify fun m hm => hP m _ m.arrays hm
  | element name index =>
    refine .bind (.get_bind fun m hm => ?_) fun g =>
      (keeps_ofExcept _).bind fun _ => .modify fun m hm => hP m m.scalars _ hm
    split
    · exact .pure _
    · exact (keeps_ofExcept _).bind fun g =>
        .bind (fun _ _ => hP m m.scalars _ hm) fun _ => .pure g

theorem together_ofEval {x y : Eval α} {s t : Machine} {R : α → Machine → Machine → Prop}
    {E : Machine → Machine → Prop} (h : Together R E (x s) (y t)) :
    Together R E (ofEval x s) (ofEval y t) := by
  rw [ofEval, ofEval]
  rcases h.cases with ⟨a, s', t', hxs, hxt, h⟩ | ⟨e, s', t', hxs, hxt, h⟩
  · rw [hxs, hxt]
    exact ⟨rfl, h⟩
  · rw [hxs, hxt]
    exact ⟨rfl, h⟩

/-- An action of the program as one of the machine. -/
theorem concludes_onProgram {x : Program.Action α} {m : Machine} {Q : α → Machine → Prop}
    {E : Cause → Machine → Prop}
    (h : Concludes (fun a p => Q a { m with program := p }) (fun c p => E c { m with program := p })
      (x m.program)) :
    Concludes Q E (onProgram x m) := by
  rw [onProgram]
  cases hx : x m.program with
  | ok a p =>
    rw [hx] at h
    exact h
  | error c p =>
    rw [hx] at h
    exact h

end Machine

end LineBasic
