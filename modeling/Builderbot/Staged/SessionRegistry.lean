import Builderbot.Lib.Table

/-!
# The session registry

`SessionRegistry` of `apps/staged/src-tauri/src/session_runner.rs`. A running session is a shared
record with a cancellation token and the completion reason to persist. The registry maps session ids
to these records; a caller that has looked one up keeps its reference after the lock is released, so
the records live in a heap of their own here and a reference is an index into it.
-/

namespace Builderbot.Staged

/-- `CompletionReason` of `store/models.rs`. -/
inductive CompletionReason where
  | turnComplete
  | interrupted
  | projectSessionInterrupted
  | crashed
  | appQuit
  | unknown
deriving DecidableEq, Repr

/-- `RunningSession`. `cancelled` is the state of the token. `sessionId` is the key under which the
record was registered; the source does not store it and no operation here reads it. -/
structure RunningSession where
  sessionId : String
  cancelled : Bool := false
  cancellationCompletionReason : Option CompletionReason := none
deriving DecidableEq, Repr

/-- `apply_cancellation`: `ProjectSessionInterrupted` overrides a reason that is already there. -/
def RunningSession.applyCancellation (e : RunningSession) (reason : CompletionReason) :
    RunningSession :=
  { e with
    cancelled := true
    cancellationCompletionReason :=
      if e.cancellationCompletionReason = none ∨ reason = .projectSessionInterrupted then some reason
      else e.cancellationCompletionReason }

/-- The registry, with the heap of records that were ever registered. -/
structure SessionRegistry where
  sessions : List RunningSession
  running : Table String ℕ
  pendingCancellations : Table String CompletionReason

namespace SessionRegistry

/-- `SessionRegistry::new`. -/
def new : SessionRegistry := ⟨[], ∅, ∅⟩

variable (R : SessionRegistry) (sessionId : String)

/-- The record that `register` creates: a fresh one, with a deferred cancellation applied. -/
def registered : RunningSession :=
  match R.pendingCancellations.lookup sessionId with
  | some reason => { sessionId : RunningSession }.applyCancellation reason
  | none => { sessionId }

/-- `register`; the second component refers to the new record, whose token the caller keeps. -/
def register : SessionRegistry × ℕ :=
  ({ sessions := R.sessions ++ [R.registered sessionId]
     running := R.running.insert sessionId R.sessions.length
     pendingCancellations := R.pendingCancellations.erase sessionId },
    R.sessions.length)

/-- `deregister`. -/
def deregister : SessionRegistry := { R with running := R.running.erase sessionId }

/-- `apply_cancellation` on the record behind a reference. -/
def applyCancellation (ref : ℕ) (reason : CompletionReason) : SessionRegistry :=
  { R with sessions := R.sessions.modify ref (·.applyCancellation reason) }

/-- The branch of `cancel_or_defer` for a session that is not registered. -/
def deferCancellation (reason : CompletionReason) : SessionRegistry :=
  { R with pendingCancellations := R.pendingCancellations.insert sessionId reason }

/-- Whether the token behind a reference is cancelled. -/
def isCancelled (ref : ℕ) : Bool := (R.sessions[ref]?.map (·.cancelled)).getD false

/-- `cancellation_completion_reason`. -/
def cancellationCompletionReason : Option CompletionReason :=
  (R.running.lookup sessionId).bind fun ref =>
    R.sessions[ref]?.bind (·.cancellationCompletionReason)

/-! ## Spec lemmas -/

theorem registered_sessionId : (R.registered sessionId).sessionId = sessionId := by
  simp only [registered]
  split <;> rfl

theorem registered_of_pending {reason : CompletionReason}
    (h : R.pendingCancellations.lookup sessionId = some reason) :
    (R.registered sessionId).cancelled = true ∧
      (R.registered sessionId).cancellationCompletionReason = some reason := by
  simp [registered, h, RunningSession.applyCancellation]

/-- A new record has no cancellation but a deferred one. -/
theorem registered_eq_fresh_or_pending :
    R.registered sessionId = { sessionId } ∨ ∃ reason,
      R.pendingCancellations.lookup sessionId = some reason ∧
        (R.registered sessionId).cancellationCompletionReason = some reason := by
  cases h : R.pendingCancellations.lookup sessionId with
  | none => exact .inl (by simp [registered, h])
  | some reason => exact .inr ⟨reason, rfl, (R.registered_of_pending sessionId h).2⟩

theorem getElem?_register_of_lt {ref : ℕ} (h : ref < R.sessions.length) :
    (R.register sessionId).1.sessions[ref]? = R.sessions[ref]? :=
  List.getElem?_append_left h

theorem getElem?_register_self :
    (R.register sessionId).1.sessions[R.sessions.length]? = some (R.registered sessionId) :=
  List.getElem?_concat_length

/-- A token that is cancelled stays so when another session registers. -/
theorem isCancelled_register {ref : ℕ} (h : R.isCancelled ref = true) :
    (R.register sessionId).1.isCancelled ref = true := by
  by_cases hlt : ref < R.sessions.length
  · rw [isCancelled, R.getElem?_register_of_lt sessionId hlt]
    exact h
  · simp [isCancelled, List.getElem?_eq_none (Nat.le_of_not_lt hlt)] at h

/-- A token that is cancelled stays so when another one is cancelled. -/
theorem isCancelled_applyCancellation {ref : ℕ} (h : R.isCancelled ref = true) (ref' : ℕ)
    (reason : CompletionReason) : (R.applyCancellation ref' reason).isCancelled ref = true := by
  unfold isCancelled at h ⊢
  simp only [applyCancellation, List.getElem?_modify]
  cases hget : R.sessions[ref]? with
  | none => simp [hget] at h
  | some e =>
    by_cases heq : ref' = ref
    · simp [heq, RunningSession.applyCancellation]
    · simpa [hget, heq] using h

/-- After a cancellation the token is cancelled, and the reason is the new one or one that was there
before. -/
theorem applyCancellation_spec (e : RunningSession) (reason : CompletionReason) :
    (e.applyCancellation reason).sessionId = e.sessionId ∧
      (e.applyCancellation reason).cancelled = true ∧
      ((e.applyCancellation reason).cancellationCompletionReason = some reason ∨
        (e.applyCancellation reason).cancellationCompletionReason
          = e.cancellationCompletionReason ∧ e.cancellationCompletionReason ≠ none) := by
  refine ⟨rfl, rfl, ?_⟩
  simp only [RunningSession.applyCancellation]
  split
  · exact .inl rfl
  · rename_i h
    exact .inr ⟨rfl, fun hnone => h (.inl hnone)⟩

end SessionRegistry

end Builderbot.Staged
