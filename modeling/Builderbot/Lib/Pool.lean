import Builderbot.Lib.Program
import Builderbot.Lib.Run

/-!
# Programs under locks

Threads run programs in one environment, one call at a time, in any order. Each thread runs under a lock, which it takes
before its first call and releases at its end.

`Safe` is what a program may do among others: between two of its calls the state may change as `rely` says, each of its
own calls keeps an invariant and meets `guar`, and at its end it meets a postcondition. `safe_bind` takes such a
statement through a program from part to part. `run_safe` is the rule for runs: where the calls under one lock are what
threads under other locks rely on, every thread of a guarded run stays safe.
-/

namespace Builderbot

namespace Program

variable {Call : Type} {Reply : Call → Type} {ε α β σ φ : Type}

/-- What a program may do among others. -/
def Safe (handle : σ → (c : Call) → φ → Reply c × σ) (allowed : σ → Call → φ → Prop) (Inv : σ → Prop)
    (rely guar : σ → σ → Prop) (post : α → σ → Prop) : Program Call Reply ε α → σ → Prop
  | .pure a, s => ∀ t, Inv t → rely s t → post a t
  | .fail _, _ => True
  | .call c next, s => ∀ t, Inv t → rely s t → ∀ f, allowed t c f →
      (Inv (handle t c f).2 ∧ guar t (handle t c f).2) ∧
        Safe handle allowed Inv rely guar post (next (handle t c f).1) (handle t c f).2

variable {handle : σ → (c : Call) → φ → Reply c × σ} {allowed : σ → Call → φ → Prop} {Inv : σ → Prop}
variable {rely guar : σ → σ → Prop} {post : α → σ → Prop} {s t : σ}

theorem safe_fail {e : ε} : Safe handle allowed Inv rely guar post (.fail e : Program Call Reply ε α) s := trivial

/-- A program may be interrupted before its first call. -/
theorem Safe.of_rely {x : Program Call Reply ε α} (htrans : ∀ s t u, rely s t → rely t u → rely s u)
    (h : Safe handle allowed Inv rely guar post x s) (hst : rely s t) : Safe handle allowed Inv rely guar post x t := by
  cases x with
  | pure | call => exact fun u hu htu => h u hu (htrans s t u hst htu)
  | fail e => trivial

/-- It is enough to look at the states in which the program may go on. -/
theorem safe_of_forall {x : Program Call Reply ε α} (hrefl : ∀ s, rely s s)
    (h : ∀ t, Inv t → rely s t → Safe handle allowed Inv rely guar post x t) :
    Safe handle allowed Inv rely guar post x s := by
  cases x with
  | pure | call => exact fun t ht hst => h t ht hst t ht (hrefl t)
  | fail e => trivial

/-- A weaker postcondition. -/
theorem Safe.mono {x : Program Call Reply ε α} {post' : α → σ → Prop}
    (h : Safe handle allowed Inv rely guar post x s) (hpost : ∀ a t, Inv t → post a t → post' a t) :
    Safe handle allowed Inv rely guar post' x s := by
  induction x generalizing s with
  | pure a => exact fun t ht hst => hpost a t ht (h t ht hst)
  | fail e => trivial
  | call c next ih =>
    intro t ht hst g hg
    obtain ⟨hkept, hnext⟩ := h t ht hst g hg
    exact ⟨hkept, ih _ hnext⟩

/-- A program whose calls are as quiet as those of the others keeps what is stable. -/
theorem Safe.frame {x : Program Call Reply ε α} {guar' : σ → σ → Prop} {r : σ}
    (htrans : ∀ s t u, rely s t → rely t u → rely s u) (hquiet : ∀ s t, guar s t → rely s t)
    (hguar : ∀ s t, guar s t → guar' s t) (hr : rely r s) (h : Safe handle allowed Inv rely guar post x s) :
    Safe handle allowed Inv rely guar' (fun a t => post a t ∧ rely r t) x s := by
  induction x generalizing s with
  | pure a => exact fun t ht hst => ⟨h t ht hst, htrans r s t hr hst⟩
  | fail e => trivial
  | call c next ih =>
    intro t ht hst g hg
    obtain ⟨⟨hinv, hstep⟩, hnext⟩ := h t ht hst g hg
    exact ⟨⟨hinv, hguar _ _ hstep⟩, ih _ (htrans r t _ (htrans r s t hr hst) (hquiet _ _ hstep)) hnext⟩

/-- A program and then another one. -/
theorem Safe.bind {x : Program Call Reply ε α} {f : α → Program Call Reply ε β} {post' : β → σ → Prop}
    (hrefl : ∀ s, rely s s) (h : Safe handle allowed Inv rely guar post x s)
    (hf : ∀ a t, Inv t → post a t → Safe handle allowed Inv rely guar post' (f a) t) :
    Safe handle allowed Inv rely guar post' (x >>= f) s := by
  induction x generalizing s with
  | pure a => exact safe_of_forall hrefl fun t ht hst => hf a t ht (h t ht hst)
  | fail e => trivial
  | call c next ih =>
    intro t ht hst g hg
    obtain ⟨hkept, hnext⟩ := h t ht hst g hg
    exact ⟨hkept, ih _ hnext⟩

end Program

/-! ## Threads -/

namespace Pool

open Program

inductive Phase (Call : Type) (Reply : Call → Type) (ε α : Type) where
  | waiting
  | running (rest : Program Call Reply ε α)
  | ended (result : Except ε α)

structure Thread (Call : Type) (Reply : Call → Type) (ε α κ : Type) where
  job : κ
  phase : Phase Call Reply ε α := .waiting

structure System (Call : Type) (Reply : Call → Type) (ε α σ κ : Type) where
  state : σ
  threads : List (Thread Call Reply ε α κ) := []

inductive Event (φ κ : Type) where
  | spawn (job : κ)
  /-- A thread takes its lock. -/
  | lock (i : ℕ)
  /-- The next call of a thread. -/
  | call (i : ℕ) (f : φ)
  /-- A thread ends and releases its lock. -/
  | finish (i : ℕ)

variable {Call : Type} {Reply : Call → Type} {ε α σ φ κ ℓ : Type}

/-- The thread holds the lock. -/
def Thread.holds [DecidableEq ℓ] (lockOf : κ → ℓ) (lock : ℓ) (thread : Thread Call Reply ε α κ) : Bool :=
  match thread.phase with
  | .running _ => lockOf thread.job = lock
  | _ => false

section Step

variable [DecidableEq ℓ] (handle : σ → (c : Call) → φ → Reply c × σ) (program : κ → Program Call Reply ε α)
  (lockOf : κ → ℓ) (admits : κ → σ → Bool)

def step (s : System Call Reply ε α σ κ) : Event φ κ → Option (System Call Reply ε α σ κ)
  | .spawn job => if admits job s.state then some { s with threads := s.threads ++ [{ job }] } else none
  | .lock i =>
    s.threads[i]?.bind fun thread =>
      match thread.phase with
      | .waiting =>
        if s.threads.any (·.holds lockOf (lockOf thread.job)) then none
        else some { s with threads := s.threads.set i { thread with phase := .running (program thread.job) } }
      | _ => none
  | .call i f =>
    s.threads[i]?.bind fun thread =>
      match thread.phase with
      | .running (.call c next) =>
        some
          { state := (handle s.state c f).2
            threads := s.threads.set i { thread with phase := .running (next (handle s.state c f).1) } }
      | _ => none
  | .finish i =>
    s.threads[i]?.bind fun thread =>
      match thread.phase with
      | .running (.pure a) => some { s with threads := s.threads.set i { thread with phase := .ended (.ok a) } }
      | .running (.fail e) => some { s with threads := s.threads.set i { thread with phase := .ended (.error e) } }
      | _ => none

/-- What a thread's next call meets. -/
def Guarded (allowed : κ → σ → Call → φ → Prop) (s : System Call Reply ε α σ κ) : Event φ κ → Prop
  | .call i f => ∀ thread c next, s.threads[i]? = some thread → thread.phase = .running (.call c next) →
      allowed thread.job s.state c f
  | _ => True

instance Guarded.decidable (allowed : κ → σ → Call → φ → Prop) [∀ job s c f, Decidable (allowed job s c f)]
    (s : System Call Reply ε α σ κ) : ∀ event, Decidable (Guarded allowed s event)
  | .call i f =>
    match hthread : s.threads[i]? with
    | none => .isTrue fun thread c next h => by
        rw [hthread] at h
        cases h
    | some thread =>
      match hphase : thread.phase with
      | .running (.call c next) =>
        decidable_of_iff (allowed thread.job s.state c f)
          ⟨fun h thread' c' next' hthread' hphase' => by
            obtain rfl := Option.some.inj (hthread.symm.trans hthread')
            cases hphase.symm.trans hphase'
            exact h, fun h => h thread c next hthread hphase⟩
      | .running (.pure _) | .running (.fail _) | .waiting | .ended _ => .isTrue fun thread' c next hthread' hphase' => by
          obtain rfl := Option.some.inj (hthread.symm.trans hthread')
          cases hphase.symm.trans hphase'
  | .spawn _ | .lock _ | .finish _ => .isTrue trivial

end Step

/-! ## The rule -/

section Rule

variable [DecidableEq ℓ] {handle : σ → (c : Call) → φ → Reply c × σ} {program : κ → Program Call Reply ε α}
  {lockOf : κ → ℓ} {admits : κ → σ → Bool} {allowed : κ → σ → Call → φ → Prop} {Inv : σ → Prop}
  {rely : ℓ → σ → σ → Prop} {post : κ → α → σ → Prop}

/-- All threads are safe among the others. -/
structure AllSafe (handle : σ → (c : Call) → φ → Reply c × σ) (lockOf : κ → ℓ) (admits : κ → σ → Bool)
    (allowed : κ → σ → Call → φ → Prop) (Inv : σ → Prop) (rely : ℓ → σ → σ → Prop) (post : κ → α → σ → Prop)
    (s : System Call Reply ε α σ κ) : Prop where
  inv : Inv s.state
  admitted : ∀ thread ∈ s.threads, admits thread.job s.state = true
  safe : ∀ thread ∈ s.threads, ∀ rest, thread.phase = .running rest →
    Safe handle (allowed thread.job) Inv (rely (lockOf thread.job))
      (fun s t => ∀ lock, lock ≠ lockOf thread.job → rely lock s t) (post thread.job) rest s.state
  exclusive : ∀ (i j : ℕ) (thread other : Thread Call Reply ε α κ) (rest rest' : Program Call Reply ε α),
    s.threads[i]? = some thread → s.threads[j]? = some other → thread.phase = .running rest →
    other.phase = .running rest' → lockOf thread.job = lockOf other.job → i = j

variable {s t : System Call Reply ε α σ κ} {i : ℕ} {thread : Thread Call Reply ε α κ}

omit [DecidableEq ℓ] in
/-- A thread goes on; `hrunning` is what it is then, and `hothers` what its step was for the others. -/
theorem AllSafe.set (h : AllSafe handle lockOf admits allowed Inv rely post s) (hthread : s.threads[i]? = some thread)
    {phase : Phase Call Reply ε α} {state : σ} (hinv : Inv state)
    (hadmits : ∀ job, admits job s.state = true → admits job state = true)
    (hrunning : ∀ rest, phase = .running rest →
      Safe handle (allowed thread.job) Inv (rely (lockOf thread.job))
        (fun s t => ∀ lock, lock ≠ lockOf thread.job → rely lock s t) (post thread.job) rest state ∧
      ∀ j other rest', j ≠ i → s.threads[j]? = some other → other.phase = .running rest' →
        lockOf other.job ≠ lockOf thread.job)
    (hothers : ∀ j other rest, j ≠ i → s.threads[j]? = some other → other.phase = .running rest →
      Safe handle (allowed other.job) Inv (rely (lockOf other.job))
        (fun s t => ∀ lock, lock ≠ lockOf other.job → rely lock s t) (post other.job) rest state) :
    AllSafe handle lockOf admits allowed Inv rely post
      { state, threads := s.threads.set i { thread with phase } } := by
  have hset {j : ℕ} {other : Thread Call Reply ε α κ} (hother : (s.threads.set i { thread with phase })[j]? = some other) :
      (j = i ∧ other = { thread with phase }) ∨ (j ≠ i ∧ s.threads[j]? = some other) := by
    rw [List.getElem?_set] at hother
    by_cases hj : i = j
    · rw [if_pos hj] at hother
      split at hother
      · exact .inl ⟨hj.symm, (Option.some.inj hother).symm⟩
      · cases hother
    · rw [if_neg hj] at hother
      exact .inr ⟨Ne.symm hj, hother⟩
  refine ⟨hinv, fun other hother => ?_, fun other hother rest hphase => ?_,
    fun j k other other' rest rest' hother hother' hphase hphase' hlocks => ?_⟩
  · rcases List.mem_or_eq_of_mem_set hother with hother | rfl
    · exact hadmits other.job (h.admitted other hother)
    · exact hadmits thread.job (h.admitted thread (List.mem_of_getElem? hthread))
  · obtain ⟨j, hj⟩ := List.mem_iff_getElem?.mp hother
    rcases hset hj with ⟨-, rfl⟩ | ⟨hji, hother⟩
    · exact (hrunning rest hphase).1
    · exact hothers j other rest hji hother hphase
  · rcases hset hother with ⟨rfl, rfl⟩ | ⟨hj, hold⟩ <;> rcases hset hother' with ⟨rfl, rfl⟩ | ⟨hk, hold'⟩
    · rfl
    · exact absurd hlocks.symm ((hrunning rest hphase).2 k other' rest' hk hold' hphase')
    · exact absurd hlocks ((hrunning rest' hphase').2 j other rest hj hold hphase)
    · exact h.exclusive j k other other' rest rest' hold hold' hphase hphase' hlocks

/-- Where the calls under one lock keep what threads under other locks rely on, a guarded step keeps all threads safe. -/
theorem AllSafe.step (hrefl : ∀ lock s, rely lock s s) (htrans : ∀ lock s t u, rely lock s t → rely lock t u → rely lock s u)
    (hprogram : ∀ job s, Inv s → admits job s = true →
      Safe handle (allowed job) Inv (rely (lockOf job)) (fun s t => ∀ lock, lock ≠ lockOf job → rely lock s t) (post job)
        (program job) s)
    (hadmits : ∀ job s c f, admits job s = true → admits job (handle s c f).2 = true)
    (h : AllSafe handle lockOf admits allowed Inv rely post s) {event : Event φ κ} (hguard : Guarded allowed s event)
    (hstep : Pool.step handle program lockOf admits s event = some t) :
    AllSafe handle lockOf admits allowed Inv rely post t := by
  cases event with
  | spawn job =>
    rw [Pool.step] at hstep
    split at hstep
    next hadmitted =>
      cases hstep
      have hmem {other : Thread Call Reply ε α κ} (hother : other ∈ s.threads ++ [({ job } : Thread Call Reply ε α κ)]) :
          other ∈ s.threads ∨ other = { job } := by
        rcases List.mem_append.mp hother with hold | hnew
        · exact .inl hold
        · exact .inr (List.mem_singleton.mp hnew)
      refine ⟨h.inv, fun other hother => ?_, fun other hother rest hphase => ?_,
        fun j k other other' rest rest' hother hother' hphase hphase' hlocks => ?_⟩
      -- the new thread has no program running
      · rcases hmem hother with hold | rfl
        · exact h.admitted other hold
        · exact hadmitted
      · rcases hmem hother with hold | rfl
        · exact h.safe other hold rest hphase
        · cases hphase
      · rcases of_getElem?_concat hother with hold | ⟨-, rfl⟩
        · rcases of_getElem?_concat hother' with hold' | ⟨-, rfl⟩
          · exact h.exclusive j k other other' rest rest' hold hold' hphase hphase' hlocks
          · cases hphase'
        · cases hphase
    next => cases hstep
  | lock i =>
    obtain ⟨thread, hthread, hstep⟩ := Option.bind_eq_some_iff.mp hstep
    split at hstep
    next hwaiting =>
      split at hstep
      next => cases hstep
      next hfree =>
        cases hstep
        apply h.set hthread h.inv fun _ hadmitted => hadmitted
        · intro rest hrest
          cases hrest
          -- the lock is free, so no running thread has it
          refine ⟨hprogram thread.job s.state h.inv (h.admitted thread (List.mem_of_getElem? hthread)),
            fun j other rest' _ hother hphase hlock => hfree (List.any_eq_true.mpr ⟨other, List.mem_of_getElem? hother, ?_⟩)⟩
          rw [Thread.holds, hphase]
          exact decide_eq_true hlock
        · exact fun j other rest _ hother hphase => h.safe other (List.mem_of_getElem? hother) rest hphase
    next => cases hstep
  | call i f =>
    obtain ⟨thread, hthread, hstep⟩ := Option.bind_eq_some_iff.mp hstep
    split at hstep
    next c next hphase =>
      cases hstep
      have hsafe := h.safe thread (List.mem_of_getElem? hthread) (.call c next) hphase
      obtain ⟨⟨hinv, hguar⟩, hnext⟩ := hsafe s.state h.inv (hrefl _ _) f (hguard thread c next hthread hphase)
      -- every other running thread holds another lock, and relies on this call
      have hlocks (j : ℕ) (other : Thread Call Reply ε α κ) (rest : Program Call Reply ε α) (hj : j ≠ i)
          (hother : s.threads[j]? = some other) (hphase' : other.phase = .running rest) :
          lockOf other.job ≠ lockOf thread.job := fun hlock =>
        hj (h.exclusive j i other thread rest _ hother hthread hphase' hphase hlock)
      apply h.set hthread hinv fun job hadmitted => hadmits job s.state c f hadmitted
      · intro rest hrest
        cases hrest
        exact ⟨hnext, hlocks⟩
      · intro j other rest hj hother hphase'
        have hold := h.safe other (List.mem_of_getElem? hother) rest hphase'
        exact hold.of_rely (htrans _) (hguar _ (hlocks j other rest hj hother hphase'))
    next => cases hstep
  | finish i =>
    obtain ⟨thread, hthread, hstep⟩ := Option.bind_eq_some_iff.mp hstep
    split at hstep
    next a hphase =>
      cases hstep
      apply h.set hthread h.inv fun _ hadmitted => hadmitted
      · exact fun rest hrest => by cases hrest
      · exact fun j other rest _ hother hphase' => h.safe other (List.mem_of_getElem? hother) rest hphase'
    next e hphase =>
      cases hstep
      apply h.set hthread h.inv fun _ hadmitted => hadmitted
      · exact fun rest hrest => by cases hrest
      · exact fun j other rest _ hother hphase' => h.safe other (List.mem_of_getElem? hother) rest hphase'
    next => cases hstep

/-- In a guarded run from a state without threads, a thread that is about to return meets its postcondition. -/
theorem run_safe (hrefl : ∀ lock s, rely lock s s) (htrans : ∀ lock s t u, rely lock s t → rely lock t u → rely lock s u)
    (hprogram : ∀ job s, Inv s → admits job s = true →
      Safe handle (allowed job) Inv (rely (lockOf job)) (fun s t => ∀ lock, lock ≠ lockOf job → rely lock s t) (post job)
        (program job) s)
    (hadmits : ∀ job s c f, admits job s = true → admits job (handle s c f).2 = true) {state : σ} (hs : Inv state)
    {events : List (Event φ κ)} (hguard : Along (Pool.step handle program lockOf admits) (Guarded allowed) { state } events)
    (hrun : run (Pool.step handle program lockOf admits) { state } events = some t) :
    Inv t.state ∧ ∀ thread ∈ t.threads, ∀ a, thread.phase = .running (.pure a) → post thread.job a t.state := by
  have hstart : AllSafe handle lockOf admits allowed Inv rely post ({ state } : System Call Reply ε α σ κ) :=
    ⟨hs, List.forall_mem_nil _, List.forall_mem_nil _, fun i j thread other rest rest' hthread => by cases hthread⟩
  have h := run_invariant_along (fun _ _ _ h hguard hstep => h.step hrefl htrans hprogram hadmits hguard hstep) hstart hguard hrun
  exact ⟨h.inv, fun thread hthread a hphase => h.safe thread hthread (.pure a) hphase t.state h.inv (hrefl _ _)⟩

end Rule

end Pool

end Builderbot
