import Mathlib.Logic.Basic

/-!
# Programs with calls

A program is a tree of calls to its environment, each with what the program does for every reply. It ends
with a value or with an error. `Sound` follows a program through all replies that meet a condition, and asks
that each call on the way meets one too. `exec` runs it against an environment with a state.

`sound_bind` takes a statement through a program from part to part, and `exec_of_sound` carries it over to a
run in an environment that keeps an invariant. `Wp` does the same with the state of the environment in view: it
is the weakest precondition of the program, for all that may come from outside. Nothing here says what the
calls do.
-/

namespace Builderbot

/-- A program with the calls `Call` and their replies. -/
inductive Program (Call : Type) (Reply : Call → Type) (ε α : Type) where
  | pure (a : α)
  | fail (e : ε)
  | call (c : Call) (next : Reply c → Program Call Reply ε α)

namespace Program

variable {Call : Type} {Reply : Call → Type} {ε α β : Type}

def bind : Program Call Reply ε α → (α → Program Call Reply ε β) → Program Call Reply ε β
  | .pure a, f => f a
  | .fail e, _ => .fail e
  | .call c next, f => .call c fun r => (next r).bind f

instance : Monad (Program Call Reply ε) where
  pure := .pure
  bind := .bind

/-- A single call. -/
def perform (c : Call) : Program Call Reply ε (Reply c) := .call c .pure

/-- Stop with the error unless the test holds. -/
def require (test : Bool) (e : ε) : Program Call Reply ε Unit := if test then .pure () else .fail e

/-- Stop with the error, turned into one of the program. -/
def ofExcept {ε' : Type} (error : ε' → ε) : Except ε' α → Program Call Reply ε α
  | .ok a => .pure a
  | .error e => .fail (error e)

def ofOption (e : ε) : Option α → Program Call Reply ε α
  | some a => .pure a
  | none => .fail e

/-! ## What holds whatever the replies are -/

/-- Every call of the program meets `pre`, and every value `Q`, as long as the replies meet `post`. -/
def Sound (pre : Call → Prop) (post : (c : Call) → Reply c → Prop) (Q : α → Prop) :
    Program Call Reply ε α → Prop
  | .pure a => Q a
  | .fail _ => True
  | .call c next => pre c ∧ ∀ r, post c r → Sound pre post Q (next r)

variable {pre : Call → Prop} {post : (c : Call) → Reply c → Prop} {Q R : α → Prop}
variable {x : Program Call Reply ε α}

theorem sound_pure {a : α} : Sound pre post Q (Pure.pure a : Program Call Reply ε α) ↔ Q a := Iff.rfl

theorem sound_require {test : Bool} {e : ε} {Q : Unit → Prop} :
    Sound pre post Q (require test e : Program Call Reply ε Unit) ↔ (test = true → Q ()) := by
  rw [require]
  cases test with
  | true => exact ⟨fun h _ => h, fun h => h rfl⟩
  | false => exact ⟨fun _ => nofun, fun _ => trivial⟩

theorem sound_ofExcept {ε' : Type} {error : ε' → ε} {r : Except ε' α} :
    Sound pre post Q (ofExcept error r : Program Call Reply ε α) ↔ ∀ a, r = .ok a → Q a := by
  cases r with
  | ok a =>
    refine ⟨fun h b hb => ?_, fun h => h a rfl⟩
    cases hb
    exact h
  | error e => exact ⟨fun _ a ha => (by cases ha), fun _ => trivial⟩

theorem sound_ofOption {e : ε} {o : Option α} :
    Sound pre post Q (ofOption e o : Program Call Reply ε α) ↔ ∀ a, o = some a → Q a := by
  cases o with
  | some a =>
    refine ⟨fun h b hb => ?_, fun h => h a rfl⟩
    cases hb
    exact h
  | none => exact ⟨fun _ a ha => (by cases ha), fun _ => trivial⟩

theorem Sound.mono (h : Sound pre post Q x) (hQ : ∀ a, Q a → R a) : Sound pre post R x := by
  induction x with
  | pure a => exact hQ a h
  | fail e => trivial
  | call c next ih => exact ⟨h.1, fun r hr => ih r (h.2 r hr)⟩

/-- A program and then another one. -/
theorem sound_bind {f : α → Program Call Reply ε β} {Q : β → Prop} :
    Sound pre post Q (x >>= f) ↔ Sound pre post (fun a => Sound pre post Q (f a)) x := by
  induction x with
  | pure a => exact Iff.rfl
  | fail e => exact Iff.rfl
  | call c next ih =>
    show (pre c ∧ ∀ r, post c r → Sound pre post Q (next r >>= f)) ↔ _
    exact and_congr_right fun _ => forall_congr' fun r => imp_congr_right fun _ => ih r

theorem Sound.bind {f : α → Program Call Reply ε β} {R : β → Prop} (h : Sound pre post Q x)
    (hf : ∀ a, Q a → Sound pre post R (f a)) : Sound pre post R (x >>= f) :=
  sound_bind.mpr (h.mono hf)

/-- A call and then a program. -/
theorem sound_perform_bind {c : Call} {f : Reply c → Program Call Reply ε β} {Q : β → Prop} :
    Sound pre post Q ((perform c : Program Call Reply ε (Reply c)) >>= f) ↔
      pre c ∧ ∀ r, post c r → Sound pre post Q (f r) := Iff.rfl

theorem sound_require_bind {test : Bool} {e : ε} {f : Unit → Program Call Reply ε β} {Q : β → Prop} :
    Sound pre post Q ((require test e : Program Call Reply ε Unit) >>= f) ↔
      (test = true → Sound pre post Q (f ())) :=
  sound_bind.trans sound_require

/-! ## Running a program -/

section Exec

variable {σ φ : Type} (handle : σ → (c : Call) → φ → Reply c × σ)

/-- Run a program in an environment. What comes from outside, such as the failure of a call, is given for
each call. -/
def exec (outcome : Call → φ) : Program Call Reply ε α → σ → Except ε α × σ
  | .pure a, s => (.ok a, s)
  | .fail e, s => (.error e, s)
  | .call c next, s => exec outcome (next (handle s c (outcome c)).1) (handle s c (outcome c)).2

variable {handle} {outcome : Call → φ} {s : σ}

theorem exec_bind (x : Program Call Reply ε α) (f : α → Program Call Reply ε β) :
    exec handle outcome (x >>= f) s =
      match exec handle outcome x s with
      | (.ok a, t) => exec handle outcome (f a) t
      | (.error e, t) => (.error e, t) := by
  induction x generalizing s with
  | pure a => rfl
  | fail e => rfl
  | call c next ih => exact ih _

theorem exec_perform_bind (c : Call) (f : Reply c → Program Call Reply ε β) :
    exec handle outcome ((perform c : Program Call Reply ε (Reply c)) >>= f) s =
      exec handle outcome (f (handle s c (outcome c)).1) (handle s c (outcome c)).2 := rfl

theorem exec_ofExcept {ε' : Type} (error : ε' → ε) (r : Except ε' α) :
    exec handle outcome (ofExcept error r) s = (r.mapError error, s) := by
  cases r <;> rfl

/-- A sound program keeps an invariant that its calls keep with the outcomes of the run. -/
theorem exec_of_sound_outcome {Inv : σ → Prop}
    (hcall : ∀ s c, Inv s → pre c → post c (handle s c (outcome c)).1 ∧ Inv (handle s c (outcome c)).2)
    (h : Sound pre post Q x) (hs : Inv s) :
    Inv (exec handle outcome x s).2 ∧ ∀ a, (exec handle outcome x s).1 = .ok a → Q a := by
  induction x generalizing s with
  | pure a =>
    refine ⟨hs, fun b hb => ?_⟩
    rw [exec, Except.ok.injEq] at hb
    exact hb ▸ h
  | fail e => exact ⟨hs, fun a ha => by cases ha⟩
  | call c next ih =>
    obtain ⟨hpost, ht⟩ := hcall s c hs h.1
    exact ih _ (h.2 _ hpost) ht

/-- A sound program keeps an invariant that its calls keep. -/
theorem exec_of_sound {Inv : σ → Prop}
    (hcall : ∀ s c f, Inv s → pre c → post c (handle s c f).1 ∧ Inv (handle s c f).2)
    (h : Sound pre post Q x) (hs : Inv s) :
    Inv (exec handle outcome x s).2 ∧ ∀ a, (exec handle outcome x s).1 = .ok a → Q a :=
  exec_of_sound_outcome (fun s c hs hc => hcall s c (outcome c) hs hc) h hs

/-- What every call keeps, a run keeps. -/
theorem exec_invariant {Inv : σ → Prop} (hcall : ∀ s c f, Inv s → Inv (handle s c f).2) (hs : Inv s) :
    Inv (exec handle outcome x s).2 := by
  induction x generalizing s with
  | pure a => exact hs
  | fail e => exact hs
  | call c next ih => exact ih _ (hcall s c (outcome c) hs)

/-- A program does not see what its calls do not see. -/
theorem exec_map {view : σ → σ}
    (hcall : ∀ s c f, pre c → handle (view s) c f = ((handle s c f).1, view (handle s c f).2))
    (h : Sound pre (fun _ _ => True) (fun _ => True) x) :
    exec handle outcome x (view s) = ((exec handle outcome x s).1, view (exec handle outcome x s).2) := by
  induction x generalizing s with
  | pure a => rfl
  | fail e => rfl
  | call c next ih =>
    rw [exec, exec, hcall s c (outcome c) h.1]
    exact ih _ (h.2 _ trivial)

/-! ### The calls of a run -/

/-- Each call of the run meets the condition in the state that it is made in. -/
def CallsMeet (handle : σ → (c : Call) → φ → Reply c × σ) (outcome : Call → φ) (P : σ → Call → Prop) :
    Program Call Reply ε α → σ → Prop
  | .pure _, _ => True
  | .fail _, _ => True
  | .call c next, s => P s c ∧ CallsMeet handle outcome P (next (handle s c (outcome c)).1) (handle s c (outcome c)).2

variable {P : σ → Call → Prop}

/-- What all calls meet that a program can make. -/
theorem Sound.callsMeet (h : Sound pre (fun _ _ => True) Q x) (hP : ∀ s c, pre c → P s c) :
    CallsMeet handle outcome P x s := by
  induction x generalizing s with
  | pure a => trivial
  | fail e => trivial
  | call c next ih => exact ⟨hP s c h.1, ih _ (h.2 _ trivial)⟩

/-! ### Weakest preconditions -/

/-- The program ends in `post` from the state, whatever of `allowed` comes from outside. -/
def Wp (handle : σ → (c : Call) → φ → Reply c × σ) (allowed : Call → φ → Prop) (post : Except ε α → σ → Prop) :
    Program Call Reply ε α → σ → Prop
  | .pure a, s => post (.ok a) s
  | .fail e, s => post (.error e) s
  | .call c next, s => ∀ f, allowed c f → Wp handle allowed post (next (handle s c f).1) (handle s c f).2

variable {allowed : Call → φ → Prop} {post post' : Except ε α → σ → Prop} {x : Program Call Reply ε α}

theorem Wp.mono (h : Wp handle allowed post x s) (hpost : ∀ r t, post r t → post' r t) :
    Wp handle allowed post' x s := by
  induction x generalizing s with
  | pure a => exact hpost _ _ h
  | fail e => exact hpost _ _ h
  | call c next ih => exact fun f hf => ih _ (h f hf)

/-- What a program does before another one. -/
def Then (f : α → Program Call Reply ε β) (handle : σ → (c : Call) → φ → Reply c × σ)
    (allowed : Call → φ → Prop) (post : Except ε β → σ → Prop) : Except ε α → σ → Prop
  | .ok a, t => Wp handle allowed post (f a) t
  | .error e, t => post (.error e) t

theorem wp_bind {f : α → Program Call Reply ε β} {post : Except ε β → σ → Prop} :
    Wp handle allowed post (x >>= f) s ↔ Wp handle allowed (Then f handle allowed post) x s := by
  induction x generalizing s with
  | pure a => exact Iff.rfl
  | fail e => exact Iff.rfl
  | call c next ih => exact forall_congr' fun g => imp_congr_right fun _ => ih _

theorem Wp.bind {f : α → Program Call Reply ε β} {post' : Except ε β → σ → Prop} (h : Wp handle allowed post x s)
    (hok : ∀ a t, post (.ok a) t → Wp handle allowed post' (f a) t)
    (herror : ∀ e t, post (.error e) t → post' (.error e) t) : Wp handle allowed post' (x >>= f) s := by
  refine wp_bind.mpr (h.mono fun r t hr => ?_)
  cases r with
  | ok a => exact hok a t hr
  | error e => exact herror e t hr

theorem wp_require_bind {test : Bool} {e : ε} {f : Unit → Program Call Reply ε β}
    {post : Except ε β → σ → Prop} (hok : test = true → Wp handle allowed post (f ()) s)
    (herror : test = false → post (.error e) s) :
    Wp handle allowed post ((require test e : Program Call Reply ε Unit) >>= f) s := by
  rw [require]
  cases test with
  | true => exact hok rfl
  | false => exact herror rfl

/-- With a single outcome for each call, there is one run. -/
theorem wp_eq_iff {x : Program Call Reply ε α} :
    Wp handle (fun c f => f = outcome c) post x s ↔ post (exec handle outcome x s).1 (exec handle outcome x s).2 := by
  induction x generalizing s with
  | pure a => exact Iff.rfl
  | fail e => exact Iff.rfl
  | call c next ih =>
    constructor
    · intro h
      exact (ih _).mp (h _ rfl)
    · rintro h f rfl
      exact (ih _).mpr h

/-- A run of the program ends in the postcondition. -/
theorem Wp.exec (h : Wp handle allowed post x s) (hallowed : ∀ c, allowed c (outcome c)) :
    post (exec handle outcome x s).1 (exec handle outcome x s).2 := by
  induction x generalizing s with
  | pure a => exact h
  | fail e => exact h
  | call c next ih => exact ih _ (h _ (hallowed c))

end Exec

end Program

end Builderbot
