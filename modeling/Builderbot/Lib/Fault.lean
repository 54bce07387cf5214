import Mathlib.Logic.Basic

/-!
# Programs whose calls may fail

A program that changes a state and may stop with an error is an `EStateM`: what it has done up to the
error stays done. `attempt` is a call that an environment lets fail, and `ErrorsIn P` says that the
program, if it stops with an error, leaves a state in which `P` holds. `ReturnsIn Q` says that `Q` holds of
what it returns and leaves, if it returns.

The rules take such a statement through a program from call to call. A call that changes nothing may
fail where `P` holds already and must succeed where it does not.
-/

namespace Builderbot.Lib

variable {ε σ α β : Type}

/-- A call, which fails with the error the environment has for it. -/
def attempt (failure : Option ε) : EStateM ε σ Unit :=
  match failure with
  | some e => throw e
  | none => pure ()

/-- A program that stops with an error leaves a state in which `P` holds. -/
def ErrorsIn (P : σ → Prop) (x : EStateM ε σ α) (s : σ) : Prop :=
  match x s with
  | .ok _ _ => True
  | .error _ t => P t

variable {P : σ → Prop} {x : EStateM ε σ α} {f : α → EStateM ε σ β} {s : σ}

theorem errorsIn_get_bind (f : σ → EStateM ε σ β) :
    ErrorsIn P (get >>= f) s ↔ ErrorsIn P (f s) s := Iff.rfl

theorem errorsIn_modify_bind (g : σ → σ) (f : Unit → EStateM ε σ β) :
    ErrorsIn P (modify g >>= f) s ↔ ErrorsIn P (f ()) (g s) := Iff.rfl

theorem errorsIn_throw_bind (e : ε) :
    ErrorsIn P ((throw e : EStateM ε σ α) >>= f) s ↔ P s := Iff.rfl

theorem errorsIn_bind_assoc {γ : Type} (g : β → EStateM ε σ γ) :
    ErrorsIn P ((x >>= f) >>= g) s ↔ ErrorsIn P (x >>= fun a => f a >>= g) s := by
  rw [bind_assoc]

/-- A call succeeds, or the state it fails in is one in which `P` holds. -/
theorem errorsIn_attempt_bind (failure : Option ε) (f : Unit → EStateM ε σ β) :
    ErrorsIn P (attempt failure >>= f) s ↔
      (failure ≠ none → P s) ∧ (failure = none → ErrorsIn P (f ()) s) := by
  cases failure with
  | some e =>
    exact ⟨fun h => ⟨fun _ => h, nofun⟩, fun h => h.1 (Option.some_ne_none e)⟩
  | none => exact ⟨fun h => ⟨fun hne => absurd rfl hne, fun _ => h⟩, fun h => h.2 rfl⟩

/-- Where `P` holds a call may fail. -/
theorem errorsIn_attempt_bind_of (hs : P s) (failure : Option ε) (f : Unit → EStateM ε σ β) :
    ErrorsIn P (attempt failure >>= f) s ↔ (failure = none → ErrorsIn P (f ()) s) := by
  rw [errorsIn_attempt_bind]
  exact ⟨fun h => h.2, fun h => ⟨fun _ => hs, h⟩⟩

/-- Where `P` does not hold a call must succeed, and so must what follows. -/
theorem errorsIn_attempt_bind_or {failure : Option ε} {f : Unit → EStateM ε σ β} {Q : Prop}
    (h : ErrorsIn P (f ()) s ↔ P s ∨ Q) :
    ErrorsIn P (attempt failure >>= f) s ↔ P s ∨ failure = none ∧ Q := by
  rw [errorsIn_attempt_bind, h]
  by_cases hs : P s
  · simp [hs]
  · by_cases hsome : failure = none
    · simp [hs, hsome]
    · simp [hs, hsome]

/-- A test that fails where `P` holds. -/
theorem errorsIn_ite_throw_bind (hs : P s) (c : Bool) (a : α) (e : ε) :
    ErrorsIn P ((if c = true then pure a else throw e) >>= f) s ↔
      (c = true → ErrorsIn P (f a) s) := by
  cases c with
  | true => exact ⟨fun h _ => h, fun h => h rfl⟩
  | false => exact ⟨fun _ => nofun, fun _ => hs⟩

/-! ## Programs that return -/

/-- If a program returns, `Q` holds of the value and the state. -/
def ReturnsIn (Q : α → σ → Prop) (x : EStateM ε σ α) (s : σ) : Prop :=
  match x s with
  | .ok a t => Q a t
  | .error _ _ => True

variable {Q : β → σ → Prop}

theorem returnsIn_get_bind (f : σ → EStateM ε σ β) :
    ReturnsIn Q (get >>= f) s ↔ ReturnsIn Q (f s) s := Iff.rfl

theorem returnsIn_modify_bind (g : σ → σ) (f : Unit → EStateM ε σ β) :
    ReturnsIn Q (modify g >>= f) s ↔ ReturnsIn Q (f ()) (g s) := Iff.rfl

theorem returnsIn_bind_assoc {γ : Type} {R : γ → σ → Prop} (g : β → EStateM ε σ γ) :
    ReturnsIn R ((x >>= f) >>= g) s ↔ ReturnsIn R (x >>= fun a => f a >>= g) s := by
  rw [bind_assoc]

theorem returnsIn_attempt_bind (failure : Option ε) (f : Unit → EStateM ε σ β) :
    ReturnsIn Q (attempt failure >>= f) s ↔ (failure = none → ReturnsIn Q (f ()) s) := by
  cases failure with
  | some e => exact ⟨fun _ => nofun, fun _ => trivial⟩
  | none => exact ⟨fun h _ => h, fun h => h rfl⟩

end Builderbot.Lib
