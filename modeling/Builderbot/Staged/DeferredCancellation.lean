import Builderbot.Staged.SessionRuns

/-!
# Deferred cancellations

`cancel_repo_session` of `project_mcp.rs` against the runs of a session. A call that finds the session
neither queued nor registered reads the row, and if that says running it defers the cancellation to
the next `register`. The row says running in the startup of a run, which is what the deferral is for,
and also after the run has left the registry and before its terminal transition.

A deferral in the second window outlives the run and cancels the next one. The statement about every
interleaving is therefore under the condition that a call defers only to a run that has yet to
register, and that no resume comes between the issue of a call and its effect.
-/

namespace Builderbot.Staged

/-! ## The calls -/

/-- Where a `cancel_repo_session` call stands. -/
inductive RepoCancelPc where
  /-- Before `transition_from_queued`. -/
  | begun
  /-- The session is not queued; `cancel_with_completion_reason` comes next. -/
  | lookUp
  /-- A record has been looked up and its token is about to be cancelled. -/
  | found (ref : ℕ)
  /-- The session is not registered; `session_is_running` comes next. -/
  | missed
  /-- The row says running; `cancel_or_defer` comes next. -/
  | deferring
  | done
deriving DecidableEq, Repr

/-- A `cancel_repo_session` call. `issuedAt` is the number of runs that had started when it was
issued: those runs and no others began before it. -/
structure RepoCancelCall where
  sessionId : String
  issuedAt : ℕ
  pc : RepoCancelPc := .begun
deriving DecidableEq, Repr

/-- The sessions and the calls, with two logs: whose deferral waits for a session to register, and
which record was cancelled by which call. A call is logged as its `issuedAt`. -/
structure RepoCancelState where
  lifecycle : Lifecycle
  calls : List RepoCancelCall := []
  deferredBy : String → ℕ := fun _ => 0
  cancellations : List (ℕ × ℕ) := []

/-- The steps of the system. A call fails or gives up when the store does. -/
inductive RepoCancelStep where
  | session (l : LifecycleStep)
  | issue (sessionId : String)
  | advance (c : ℕ) (stored : Bool)
deriving DecidableEq, Repr

namespace RepoCancelState

/-- No call has been issued. -/
def init (rows : SessionTable) : RepoCancelState := { lifecycle := .init rows }

/-- The cancellation that a step of a run delivers: the one that was deferred until it registers. -/
def delivered (s : RepoCancelState) : LifecycleStep → List (ℕ × ℕ)
  | .register i =>
    match s.lifecycle.runs[i]? with
    | some run =>
      match s.lifecycle.registry.pendingCancellations.lookup run.sessionId with
      | some _ => [(s.lifecycle.registry.sessions.length, s.deferredBy run.sessionId)]
      | none => []
    | none => []
  | _ => []

/-- The call at `c` moves on. -/
def goto (s : RepoCancelState) (c : ℕ) (pc : RepoCancelPc) : RepoCancelState :=
  { s with calls := s.calls.modify c ({ · with pc }) }

/-- `transition_from_queued` of a call. -/
def dequeue (s : RepoCancelState) (c : ℕ) (sessionId : String) : RepoCancelState :=
  let new := ⟨.cancelled, some .projectSessionInterrupted⟩
  match s.lifecycle.rows.transitionFromQueued sessionId new with
  | (rows, true) => { s.goto c .done with lifecycle := { s.lifecycle with rows } }
  | (_, false) => s.goto c .lookUp

/-- A call cancels the token of the record it has looked up. -/
def signal (s : RepoCancelState) (c : ℕ) (issuedAt ref : ℕ) : RepoCancelState :=
  { s.goto c .done with
    lifecycle :=
      { s.lifecycle with
        registry := s.lifecycle.registry.applyCancellation ref .projectSessionInterrupted }
    cancellations := s.cancellations ++ [(ref, issuedAt)] }

/-- A call defers its cancellation. -/
def defer (s : RepoCancelState) (c : ℕ) (sessionId : String) (issuedAt : ℕ) : RepoCancelState :=
  { s.goto c .done with
    lifecycle :=
      { s.lifecycle with
        registry := s.lifecycle.registry.deferCancellation sessionId .projectSessionInterrupted }
    deferredBy := Function.update s.deferredBy sessionId issuedAt }

/-- `session_is_running`, which takes a failing store for a session that is not running. -/
def sessionIsRunning (s : RepoCancelState) (sessionId : String) (stored : Bool) : Bool :=
  stored && (s.lifecycle.rows sessionId).map (·.status) = some .running

/-- The next step of a call of `cancel_repo_session`. -/
def advanceCall (s : RepoCancelState) (c : ℕ) (call : RepoCancelCall) (stored : Bool) :
    Option RepoCancelState :=
  match call.pc with
  | .begun => some (if stored then s.dequeue c call.sessionId else s.goto c .done)
  | .lookUp =>
    match s.lifecycle.registry.running.lookup call.sessionId with
    | some ref => some (s.goto c (.found ref))
    | none => some (s.goto c .missed)
  | .found ref => some (s.signal c call.issuedAt ref)
  | .missed =>
    some (s.goto c (if s.sessionIsRunning call.sessionId stored then .deferring else .done))
  | .deferring =>
    match s.lifecycle.registry.running.lookup call.sessionId with
    | some ref => some (s.goto c (.found ref))
    | none => some (s.defer c call.sessionId call.issuedAt)
  | .done => none

/-- One step, `none` when it is not possible. -/
def step (s : RepoCancelState) : RepoCancelStep → Option RepoCancelState
  | .session l =>
    (s.lifecycle.step l).map fun lifecycle =>
      { s with lifecycle, cancellations := s.cancellations ++ s.delivered l }
  | .issue sessionId =>
    some { s with calls := s.calls ++ [{ sessionId, issuedAt := s.lifecycle.runs.length }] }
  | .advance c stored =>
    match s.calls[c]? with
    | some call => s.advanceCall c call stored
    | none => none

/-- No cancellation waits for a session whose row is terminal, and whoever cancelled the token of a
resumed run was issued after the resume: each cancelled token has been cancelled by some call, and
every call that cancelled it knew of the run. -/
def NoStaleCancellation (s : RepoCancelState) : Prop :=
  (∀ id row, s.lifecycle.rows id = some row → row.status.isTerminal = true →
    s.lifecycle.registry.pendingCancellations.lookup id = none) ∧
  ∀ i run ref, s.lifecycle.runs[i]? = some run → run.resumed = true → run.token = some ref →
    s.lifecycle.registry.isCancelled ref = true →
      (∃ issuedAt, (ref, issuedAt) ∈ s.cancellations) ∧
        ∀ issuedAt, (ref, issuedAt) ∈ s.cancellations → i < issuedAt

/-! ## The condition -/

/-- No run of the session was started by a resume since the call was issued. -/
def Timely (s : RepoCancelState) (call : RepoCancelCall) : Prop :=
  ∀ run ∈ s.lifecycle.runs.drop call.issuedAt, run.sessionId = call.sessionId → run.resumed = false

/-- The row says running and no run of the session has left the registry without having made its
terminal transition: the session has yet to register. -/
def AwaitsRegister (s : RepoCancelState) (sessionId : String) : Prop :=
  (s.lifecycle.rows sessionId).map (·.status) = some .running ∧
    ∀ run ∈ s.lifecycle.runs, run.sessionId = sessionId → run.phase.inHooks = false

/-- A call takes effect before another resume of its session, and defers only to a run that has yet
to register. -/
def CleanCancel (s : RepoCancelState) (call : RepoCancelCall) : Prop :=
  match call.pc with
  | .lookUp => s.lifecycle.registry.running.lookup call.sessionId ≠ none → s.Timely call
  | .deferring =>
    s.Timely call ∧
      (s.lifecycle.registry.running.lookup call.sessionId = none → s.AwaitsRegister call.sessionId)
  | _ => True

/-- The condition on a step: it is one on the steps of calls. -/
def CleanStep (s : RepoCancelState) : RepoCancelStep → Prop
  | .advance c _ => ∀ call ∈ s.calls[c]?, s.CleanCancel call
  | _ => True

instance (s : RepoCancelState) (call : RepoCancelCall) : Decidable (s.Timely call) :=
  inferInstanceAs (Decidable (∀ _ ∈ _, _))

instance (s : RepoCancelState) (sessionId : String) : Decidable (s.AwaitsRegister sessionId) :=
  inferInstanceAs (Decidable (_ ∧ _))

instance (s : RepoCancelState) : ∀ call : RepoCancelCall, Decidable (s.CleanCancel call)
  | ⟨id, issuedAt, .lookUp⟩ => inferInstanceAs (Decidable
      (s.lifecycle.registry.running.lookup id ≠ none → s.Timely ⟨id, issuedAt, .lookUp⟩))
  | ⟨id, issuedAt, .deferring⟩ => inferInstanceAs (Decidable
      (s.Timely ⟨id, issuedAt, .deferring⟩ ∧
        (s.lifecycle.registry.running.lookup id = none → s.AwaitsRegister id)))
  | ⟨_, _, .begun⟩ | ⟨_, _, .found _⟩ | ⟨_, _, .missed⟩ | ⟨_, _, .done⟩ => .isTrue trivial

instance : ∀ (s : RepoCancelState) (l : RepoCancelStep), Decidable (s.CleanStep l)
  | s, .advance c _ => inferInstanceAs (Decidable (∀ call ∈ s.calls[c]?, s.CleanCancel call))
  | _, .session _ | _, .issue _ => .isTrue trivial

end RepoCancelState

/-! ## One live run for each session -/

namespace Lifecycle

/-- The row of a live run is running, a session has one live run at most, a run is listed in the
registry from its registration to its deregistration, and a record belongs to the session under whose
id it was registered. -/
structure Tidy (s : Lifecycle) : Prop where
  running : ∀ (i : ℕ) (run : SessionRun), s.runs[i]? = some run → run.phase.live = true →
    ∃ row, s.rows run.sessionId = some row ∧ row.status = .running
  alone : ∀ (i j : ℕ) (run run' : SessionRun), s.runs[i]? = some run → s.runs[j]? = some run' →
    run.sessionId = run'.sessionId → run.phase.live = true → run'.phase.live = true → i = j
  listed : ∀ (i : ℕ) (run : SessionRun), s.runs[i]? = some run → run.phase.registered = true →
    s.registry.running.lookup run.sessionId ≠ none
  owner : ∀ (i : ℕ) (run : SessionRun) (ref : ℕ), s.runs[i]? = some run → run.token = some ref →
    ∃ e, s.registry.sessions[ref]? = some e ∧ e.sessionId = run.sessionId
  keyed : ∀ (id : String) (ref : ℕ), s.registry.running.lookup id = some ref →
    ∃ e, s.registry.sessions[ref]? = some e ∧ e.sessionId = id

theorem init_tidy (rows : SessionTable) : (init rows).Tidy where
  running _ _ h := by simp [init] at h
  alone _ _ _ _ h := by simp [init] at h
  listed _ _ h := by simp [init] at h
  owner _ _ _ h := by simp [init] at h
  keyed _ _ h := by cases h

namespace Tidy

variable {s t : Lifecycle} {i : ℕ} {run : SessionRun} {f : SessionRun → SessionRun}

/-- What leaves the runs and the registered sessions alone and stops no running row. -/
theorem frame (h : s.Tidy) (hruns : t.runs = s.runs)
    (hrows : ∀ id row, s.rows id = some row → row.status = .running → t.rows id = some row)
    (hrunning : t.registry.running = s.registry.running)
    (hrecords : ∀ (ref : ℕ) (e : RunningSession), s.registry.sessions[ref]? = some e →
      ∃ e', t.registry.sessions[ref]? = some e' ∧ e'.sessionId = e.sessionId) : t.Tidy where
  running i run hi hlive := by
    rw [hruns] at hi
    obtain ⟨row, hrow, hstatus⟩ := h.running i run hi hlive
    exact ⟨row, hrows _ row hrow hstatus, hstatus⟩
  alone := by
    rw [hruns]
    exact h.alone
  listed := by
    rw [hruns, hrunning]
    exact h.listed
  owner i run ref hi htoken := by
    rw [hruns] at hi
    obtain ⟨e, he, hid⟩ := h.owner i run ref hi htoken
    obtain ⟨e', he', hid'⟩ := hrecords ref e he
    exact ⟨e', he', hid'.trans hid⟩
  keyed id ref hlookup := by
    rw [hrunning] at hlookup
    obtain ⟨e, he, hid⟩ := h.keyed id ref hlookup
    obtain ⟨e', he', hid'⟩ := hrecords ref e he
    exact ⟨e', he', hid'.trans hid⟩

/-- A run starts where none of the session is live. -/
theorem start (h : s.Tidy) {id : String} (resumed : Bool)
    (hrow : ∀ row, s.rows id = some row → row.status ≠ .running) :
    (s.start (Function.update s.rows id (some ⟨.running, none⟩)) id resumed).Tidy := by
  have hdead : ∀ {j : ℕ} {r : SessionRun}, s.runs[j]? = some r → r.sessionId = id →
      r.phase.live ≠ true := by
    intro j r hj hid hlive
    obtain ⟨row, hr, hstatus⟩ := h.running j r hj hlive
    exact hrow row (hid ▸ hr) hstatus
  constructor
  case running =>
    intro j r hj hlive
    show ∃ row, Function.update s.rows id _ r.sessionId = some row ∧ _
    rcases of_getElem?_concat hj with hj | ⟨-, rfl⟩
    · rw [Function.update_of_ne fun hid => hdead hj hid hlive]
      exact h.running j r hj hlive
    · exact ⟨⟨.running, none⟩, Function.update_self .., rfl⟩
  case alone =>
    intro j k r r' hj hk hid hlive hlive'
    rcases of_getElem?_concat hj with hj | ⟨hj', rfl⟩ <;> rcases of_getElem?_concat hk with hk | ⟨hk', rfl⟩
    · exact h.alone j k r r' hj hk hid hlive hlive'
    · exact absurd hlive (hdead hj hid)
    · exact absurd hlive' (hdead hk hid.symm)
    · omega
  case listed =>
    intro j r hj hreg
    rcases of_getElem?_concat hj with hj | ⟨-, rfl⟩
    · exact h.listed j r hj hreg
    · exact Bool.noConfusion hreg
  case owner =>
    intro j r ref hj htoken
    rcases of_getElem?_concat hj with hj | ⟨-, rfl⟩
    · exact h.owner j r ref hj htoken
    · exact absurd htoken.symm (Option.some_ne_none ref)
  case keyed => exact h.keyed

/-- A live run moves on; what it does to the row and the registry concerns its own session. -/
theorem replace (h : s.Tidy) (hi : s.runs[i]? = some run) (hlive : run.phase.live = true)
    (hruns : t.runs = s.runs.modify i f) (hid : (f run).sessionId = run.sessionId)
    (hrows : ∀ id, id ≠ run.sessionId ∨ (f run).phase.live = true → t.rows id = s.rows id)
    (hrunning : ∀ id, id ≠ run.sessionId →
      t.registry.running.lookup id = s.registry.running.lookup id)
    (hself : (f run).phase.registered = true → t.registry.running.lookup run.sessionId ≠ none)
    (hrecords : ∀ (ref : ℕ) (e : RunningSession), s.registry.sessions[ref]? = some e →
      t.registry.sessions[ref]? = some e)
    (htoken : ∀ ref, (f run).token = some ref ∨ t.registry.running.lookup run.sessionId = some ref →
      ∃ e, t.registry.sessions[ref]? = some e ∧ e.sessionId = run.sessionId) : t.Tidy := by
  have hcases : ∀ {j : ℕ} {r : SessionRun}, t.runs[j]? = some r →
      (j = i ∧ r = f run) ∨ (j ≠ i ∧ s.runs[j]? = some r) := by
    intro j r hj
    rw [hruns] at hj
    exact of_getElem?_modify hi hj
  -- another live run is of another session
  have hother : ∀ {j : ℕ} {r : SessionRun}, j ≠ i → s.runs[j]? = some r → r.phase.live = true →
      r.sessionId ≠ run.sessionId :=
    fun hne hj hr heq => hne (h.alone _ _ _ _ hj hi heq hr hlive)
  constructor
  case running =>
    intro j r hj hr
    rcases hcases hj with ⟨rfl, rfl⟩ | ⟨hne, hj⟩
    · rw [hid, hrows _ (.inr hr)]
      exact h.running j run hi hlive
    · rw [hrows _ (.inl (hother hne hj hr))]
      exact h.running j r hj hr
  case alone =>
    intro j k r r' hj hk heq hr hr'
    rcases hcases hj with ⟨rfl, rfl⟩ | ⟨hne, hj⟩ <;> rcases hcases hk with ⟨rfl, rfl⟩ | ⟨hne', hk⟩
    · rfl
    · exact absurd (heq.symm.trans hid) (hother hne' hk hr')
    · exact absurd (heq.trans hid) (hother hne hj hr)
    · exact h.alone j k r r' hj hk heq hr hr'
  case listed =>
    intro j r hj hr
    rcases hcases hj with ⟨rfl, rfl⟩ | ⟨hne, hj⟩
    · rw [hid]
      exact hself hr
    · rw [hrunning _ (hother hne hj (SessionPhase.live_of_registered hr))]
      exact h.listed j r hj hr
  case owner =>
    intro j r ref hj hr
    rcases hcases hj with ⟨rfl, rfl⟩ | ⟨-, hj⟩
    · rw [hid]
      exact htoken ref (.inl hr)
    · obtain ⟨e, he, heq⟩ := h.owner j r ref hj hr
      exact ⟨e, hrecords ref e he, heq⟩
  case keyed =>
    intro id ref hlookup
    by_cases heq : id = run.sessionId
    · subst heq
      exact htoken ref (.inr hlookup)
    · rw [hrunning id heq] at hlookup
      obtain ⟨e, he, hid'⟩ := h.keyed id ref hlookup
      exact ⟨e, hrecords ref e he, hid'⟩

/-- The run stays in the registry, or never was there, and its row is left alone. -/
theorem moveTo (h : s.Tidy) {phase : SessionPhase} (hi : s.runs[i]? = some run)
    (hlive : run.phase.live = true)
    (hphase : phase.registered = true → run.phase.registered = true) : (s.moveTo i phase).Tidy := by
  refine h.replace hi hlive rfl rfl (fun _ _ => rfl) (fun _ _ => rfl)
    (fun hreg => h.listed i run hi (hphase hreg)) (fun _ _ he => he) ?_
  rintro ref (htoken | hlookup)
  · exact h.owner i run ref hi htoken
  · exact h.keyed _ ref hlookup

theorem registerRun (h : s.Tidy) (hi : s.runs[i]? = some run) (hphase : run.phase = .starting) :
    (s.registerRun i run.sessionId).Tidy := by
  have hlive : run.phase.live = true := by
    rw [hphase]
    rfl
  have hlookup : (s.registerRun i run.sessionId).registry.running.lookup run.sessionId
      = some s.registry.sessions.length := AList.lookup_insert _
  refine h.replace hi hlive rfl rfl (fun _ _ => rfl) (fun id hne => AList.lookup_insert_ne hne)
    (fun _ => ?_) (fun ref e he => ?_) (fun ref href => ?_)
  · rw [hlookup]
    exact Option.some_ne_none _
  · obtain ⟨hlt, -⟩ := List.getElem?_eq_some_iff.mp he
    exact (s.registry.getElem?_register_of_lt _ hlt).trans he
  · have href : ref = s.registry.sessions.length := by
      rcases href with htoken | hrunning
      · exact (Option.some.inj htoken).symm
      · exact Option.some.inj (hrunning.symm.trans hlookup)
    subst href
    exact ⟨_, s.registry.getElem?_register_self _, s.registry.registered_sessionId _⟩

theorem deregisterRun (h : s.Tidy) {outcome : Session} (hi : s.runs[i]? = some run)
    (hphase : run.phase = .decided outcome) : (s.deregisterRun i run.sessionId outcome).Tidy := by
  have hlive : run.phase.live = true := by
    rw [hphase]
    rfl
  have hlookup : (s.deregisterRun i run.sessionId outcome).registry.running.lookup run.sessionId
      = none := AList.lookup_erase _ _
  refine h.replace hi hlive rfl rfl (fun _ _ => rfl) (fun id hne => AList.lookup_erase_ne hne)
    (fun hreg => Bool.noConfusion hreg) (fun _ _ he => he) ?_
  rintro ref (htoken | hrunning)
  · exact h.owner i run ref hi htoken
  · rw [hlookup] at hrunning
    cases hrunning

theorem transitionRun (h : s.Tidy) {outcome : Session} (hi : s.runs[i]? = some run)
    (hphase : run.phase = .hooks outcome) (stored : Bool) :
    (s.transitionRun i run.sessionId outcome stored).Tidy := by
  have hlive : run.phase.live = true := by
    rw [hphase]
    rfl
  refine h.replace hi hlive rfl rfl ?_ (fun _ _ => rfl) (fun hreg => Bool.noConfusion hreg)
    (fun _ _ he => he) ?_
  · rintro id (hne | hfinished)
    · exact s.transitionRun_rows_of_ne outcome stored hne
    · exact Bool.noConfusion hfinished
  · rintro ref (htoken | hrunning)
    · exact h.owner i run ref hi htoken
    · exact h.keyed _ ref hrunning

/-- Every step of a run keeps the runs tidy. -/
theorem effect {l : LifecycleStep} (h : s.Tidy) (he : Effect s l t) : t.Tidy := by
  cases he with
  | idle _ => exact h
  | queue hrow =>
    refine h.frame rfl (fun id row hid _ => ?_) rfl fun ref e he => ⟨e, he, rfl⟩
    refine (Function.update_of_ne ?_ _ _).trans hid
    rintro rfl
    exact absurd (hrow.symm.trans hid).symm (Option.some_ne_none row)
  | start _ hrow _ => exact h.start _ hrow
  | startFails hrun hphase =>
    refine h.moveTo hrun ?_ fun hreg => Bool.noConfusion hreg
    rw [hphase]
    rfl
  | register hrun hphase => exact h.registerRun hrun hphase
  | move _ hrun hphase _ => exact h.moveTo hrun (SessionPhase.live_of_registered hphase) fun _ => hphase
  | deregister hrun hphase => exact h.deregisterRun hrun hphase
  | transition hrun hphase => exact h.transitionRun hrun hphase _

end Tidy

/-! ## What a deferral and a cancellation need -/

/-- The session is running and its live run, if there is one, has yet to register; a resumed run is
among the first `n`. -/
def Awaits (s : Lifecycle) (id : String) (n : ℕ) : Prop :=
  (∃ row, s.rows id = some row ∧ row.status = .running) ∧
    ∀ (i : ℕ) (run : SessionRun), s.runs[i]? = some run → run.sessionId = id →
      run.phase.live = true → run.phase = .starting ∧ (run.resumed = true → i < n)

/-- The record exists, and if a resumed run was given its token, that run is among the first `n`. -/
def Covers (s : Lifecycle) (ref n : ℕ) : Prop :=
  ref < s.registry.sessions.length ∧
    ∀ (i : ℕ) (run : SessionRun), s.runs[i]? = some run → run.token = some ref →
      run.resumed = true → i < n

section

variable {s t : Lifecycle} {i n ref : ℕ} {id : String} {run : SessionRun}
  {f : SessionRun → SessionRun} {l : LifecycleStep}

theorem Awaits.modify (h : s.Awaits id n) (hi : s.runs[i]? = some run)
    (hruns : t.runs = s.runs.modify i f) (hrow : t.rows id = s.rows id)
    (hself : (f run).sessionId = id → (f run).phase.live ≠ true) : t.Awaits id n := by
  refine ⟨hrow ▸ h.1, fun j r hj hid hlive => ?_⟩
  rw [hruns] at hj
  rcases of_getElem?_modify hi hj with ⟨rfl, rfl⟩ | ⟨-, hj⟩
  · exact absurd hlive (hself hid)
  · exact h.2 j r hj hid hlive

/-- A session that awaits a registration has no run in another live phase. -/
theorem Awaits.ne_of_live (h : s.Awaits id n) (hi : s.runs[i]? = some run)
    (hlive : run.phase.live = true) (hphase : run.phase ≠ .starting) : run.sessionId ≠ id :=
  fun hid => hphase (h.2 i run hi hid hlive).1

/-- Only its own registration ends the wait. -/
theorem Awaits.effect (h : s.Awaits id n) (he : Effect s l t)
    (hl : ∀ i run, l = .register i → s.runs[i]? = some run → run.sessionId ≠ id) :
    t.Awaits id n := by
  obtain ⟨row, hrow, hstatus⟩ := h.1
  cases he with
  | idle _ => exact h
  | queue hnone =>
    refine ⟨⟨row, (Function.update_of_ne ?_ _ _).trans hrow, hstatus⟩, h.2⟩
    rintro rfl
    exact absurd (hnone.symm.trans hrow).symm (Option.some_ne_none row)
  | @start _ id' resumed _ hidle _ =>
    have hne : id ≠ id' := by
      rintro rfl
      exact hidle row hrow hstatus
    refine ⟨⟨row, (Function.update_of_ne hne _ _).trans hrow, hstatus⟩, fun j r hj hid hlive => ?_⟩
    rcases of_getElem?_concat hj with hj | ⟨-, rfl⟩
    · exact h.2 j r hj hid hlive
    · exact absurd hid.symm hne
  | startFails hrun _ => exact h.modify hrun rfl rfl fun _ => Bool.noConfusion
  | register hrun _ =>
    have hne := hl _ _ rfl hrun
    exact h.modify hrun rfl rfl fun hid => absurd hid hne
  | move _ hrun hphase _ =>
    have hne := h.ne_of_live hrun (SessionPhase.live_of_registered hphase)
      fun heq => by rw [heq] at hphase; cases hphase
    exact h.modify hrun rfl rfl fun hid => absurd hid hne
  | deregister hrun hphase =>
    have hne := h.ne_of_live hrun (by rw [hphase]; rfl) (by rw [hphase]; exact nofun)
    exact h.modify hrun rfl rfl fun hid => absurd hid hne
  | transition hrun hphase =>
    have hne := h.ne_of_live hrun (by rw [hphase]; rfl) (by rw [hphase]; exact nofun)
    refine h.modify hrun rfl ?_ fun hid => absurd hid hne
    exact s.transitionRun_rows_of_ne _ _ hne.symm

theorem Covers.modify (h : s.Covers ref n) (hi : s.runs[i]? = some run)
    (hruns : t.runs = s.runs.modify i f) (hresumed : (f run).resumed = run.resumed)
    (htoken : (f run).token = run.token ∨ (f run).token = some s.registry.sessions.length)
    (hlen : s.registry.sessions.length ≤ t.registry.sessions.length) : t.Covers ref n := by
  refine ⟨h.1.trans_le hlen, fun j r hj hr hres => ?_⟩
  rw [hruns] at hj
  rcases of_getElem?_modify hi hj with ⟨rfl, rfl⟩ | ⟨-, hj⟩
  · rcases htoken with htoken | htoken
    · exact h.2 j run hi (htoken.symm.trans hr) (hresumed.symm.trans hres)
    · have href := Option.some.inj (htoken.symm.trans hr)
      have hlt := h.1
      omega
  · exact h.2 j r hj hr hres

/-- A run is given its token once, when the record is new. -/
theorem Covers.effect (h : s.Covers ref n) (he : Effect s l t) : t.Covers ref n := by
  cases he with
  | idle _ | queue _ => exact h
  | start _ _ _ =>
    refine ⟨h.1, fun j r hj hr hres => ?_⟩
    rcases of_getElem?_concat hj with hj | ⟨-, rfl⟩
    · exact h.2 j r hj hr hres
    · cases hr
  | startFails hrun _ | move _ hrun _ _ | deregister hrun _ | transition hrun _ =>
    exact h.modify hrun rfl rfl (.inl rfl) le_rfl
  | register hrun _ =>
    refine h.modify hrun rfl rfl (.inr rfl) ?_
    show _ ≤ (s.registry.sessions ++ [_]).length
    rw [List.length_append]
    omega

end

end Lifecycle

/-! ## The invariant -/

namespace RepoCancelState

/-- A pending cancellation awaits the registration of a run that its call knew of; a call about to
signal, and each signal that was given, is for a run it knew of; and a token is cancelled by signals
only. -/
structure Settled (s : RepoCancelState) : Prop where
  tidy : s.lifecycle.Tidy
  pending : ∀ id, s.lifecycle.registry.pendingCancellations.lookup id ≠ none →
    s.lifecycle.Awaits id (s.deferredBy id)
  calls : ∀ call ∈ s.calls, ∀ ref, call.pc = .found ref → s.lifecycle.Covers ref call.issuedAt
  logged : ∀ c ∈ s.cancellations, s.lifecycle.Covers c.1 c.2
  cancelled : ∀ ref, s.lifecycle.registry.isCancelled ref = true →
    ∃ issuedAt, (ref, issuedAt) ∈ s.cancellations

theorem init_settled (rows : SessionTable) : (init rows).Settled where
  tidy := Lifecycle.init_tidy rows
  pending _ h := absurd rfl h
  calls _ h := by cases h
  logged _ h := by cases h
  cancelled _ h := by cases h

/-- A run that a resume has started is one that a timely call knew of. -/
theorem Timely.lt {s : RepoCancelState} {call : RepoCancelCall} {i : ℕ} {run : SessionRun}
    (h : s.Timely call) (hrun : s.lifecycle.runs[i]? = some run)
    (hid : run.sessionId = call.sessionId) (hresumed : run.resumed = true) : i < call.issuedAt := by
  by_contra hge
  have hmem : run ∈ s.lifecycle.runs.drop call.issuedAt := by
    refine List.mem_of_getElem? (i := i - call.issuedAt) ?_
    rw [List.getElem?_drop, ← hrun]
    congr 1
    omega
  have hfirst := h run hmem hid
  rw [hresumed] at hfirst
  cases hfirst

namespace Settled

variable {s t : RepoCancelState} {c : ℕ} {call : RepoCancelCall}

theorem noStaleCancellation (h : s.Settled) : s.NoStaleCancellation := by
  constructor
  · intro id row hrow hterminal
    by_contra hpending
    obtain ⟨row', hrow', hstatus⟩ := (h.pending id hpending).1
    rw [Option.some.inj (hrow.symm.trans hrow'), hstatus] at hterminal
    cases hterminal
  · intro i run ref hrun hresumed htoken hcancelled
    refine ⟨h.cancelled ref hcancelled, fun issuedAt hmem => ?_⟩
    exact (h.logged _ hmem).2 i run hrun htoken hresumed

/-- The calls after the call at `c` has moved on, where it is not about to signal. -/
theorem calls_goto (h : s.Settled) (hc : s.calls[c]? = some call) {pc : RepoCancelPc}
    (hpc : ∀ ref, pc = .found ref → s.lifecycle.Covers ref call.issuedAt) :
    ∀ call ∈ (s.goto c pc).calls, ∀ ref, call.pc = .found ref →
      s.lifecycle.Covers ref call.issuedAt := by
  intro call' hmem ref hfound
  rcases mem_modify hc hmem with hmem | rfl
  · exact h.calls call' hmem ref hfound
  · exact hpc ref hfound

theorem goto (h : s.Settled) (hc : s.calls[c]? = some call) {pc : RepoCancelPc}
    (hpc : ∀ ref, pc = .found ref → s.lifecycle.Covers ref call.issuedAt) : (s.goto c pc).Settled where
  tidy := h.tidy
  pending := h.pending
  calls := h.calls_goto hc hpc
  logged := h.logged
  cancelled := h.cancelled

/-- `transition_from_queued` touches no running row. -/
theorem dequeue (h : s.Settled) (hc : s.calls[c]? = some call) :
    (s.dequeue c call.sessionId).Settled := by
  unfold RepoCancelState.dequeue
  rcases s.lifecycle.rows.updateWhere_cases call.sessionId (· = .queued)
    ⟨.cancelled, some .projectSessionInterrupted⟩ with ⟨heq, -⟩ | ⟨row, hrow, hqueued, heq⟩
  · simp only [SessionTable.transitionFromQueued, heq]
    exact h.goto hc nofun
  · simp only [SessionTable.transitionFromQueued, heq]
    have hqueued : row.status = .queued := by simpa using hqueued
    have hkeep : ∀ {id row'}, s.lifecycle.rows id = some row' → row'.status = .running →
        Function.update s.lifecycle.rows call.sessionId
          (some ⟨.cancelled, some .projectSessionInterrupted⟩) id = some row' := by
      intro id row' hrow' hstatus
      refine (Function.update_of_ne ?_ _ _).trans hrow'
      rintro rfl
      rw [← Option.some.inj (hrow.symm.trans hrow'), hqueued] at hstatus
      cases hstatus
    constructor
    case tidy =>
      exact h.tidy.frame rfl (fun id row' => hkeep) rfl fun ref e he => ⟨e, he, rfl⟩
    case pending =>
      intro id hpending
      obtain ⟨⟨row', hrow', hstatus⟩, hruns⟩ := h.pending id hpending
      exact ⟨⟨row', hkeep hrow' hstatus, hstatus⟩, hruns⟩
    case calls => exact h.calls_goto hc nofun
    case logged => exact h.logged
    case cancelled => exact h.cancelled

/-- A call about to signal was issued after the run whose token it has looked up. -/
theorem covers_of_lookup (h : s.Settled) (htimely : s.Timely call) {ref : ℕ}
    (hlookup : s.lifecycle.registry.running.lookup call.sessionId = some ref) :
    s.lifecycle.Covers ref call.issuedAt := by
  obtain ⟨e, he, hid⟩ := h.tidy.keyed _ ref hlookup
  refine ⟨(List.getElem?_eq_some_iff.mp he).1, fun i run hrun htoken hresumed => ?_⟩
  obtain ⟨e', he', hid'⟩ := h.tidy.owner i run ref hrun htoken
  have hsession : run.sessionId = call.sessionId := by
    rw [← hid', ← hid, Option.some.inj (he.symm.trans he')]
  exact htimely.lt hrun hsession hresumed

theorem signal (h : s.Settled) (hc : s.calls[c]? = some call) {ref : ℕ}
    (hpc : call.pc = .found ref) : (s.signal c call.issuedAt ref).Settled := by
  have hcovers := h.calls call (List.mem_of_getElem? hc) ref hpc
  have hlength : (s.signal c call.issuedAt ref).lifecycle.registry.sessions.length
      = s.lifecycle.registry.sessions.length := List.length_modify ..
  have hkeep : ∀ {ref' n}, s.lifecycle.Covers ref' n →
      (s.signal c call.issuedAt ref).lifecycle.Covers ref' n := by
    intro ref' n hcov
    exact ⟨hlength ▸ hcov.1, hcov.2⟩
  constructor
  case tidy =>
    refine h.tidy.frame rfl (fun _ _ hrow _ => hrow) rfl fun ref' e he => ?_
    refine ⟨_, (List.getElem?_modify ..).trans (congrArg _ he), ?_⟩
    show (if ref = ref' then _ else e).sessionId = e.sessionId
    split
    · exact (SessionRegistry.applyCancellation_spec e _).1
    · rfl
  case pending => exact h.pending
  case calls =>
    intro call' hmem ref' hfound
    have hpc' : ∀ ref', RepoCancelPc.done = .found ref' → s.lifecycle.Covers ref' call.issuedAt := nofun
    exact hkeep (h.calls_goto hc hpc' call' hmem ref' hfound)
  case logged =>
    intro entry hmem
    rcases List.mem_append.mp hmem with hmem | hmem
    · exact hkeep (h.logged entry hmem)
    · rw [List.mem_singleton.mp hmem]
      exact hkeep hcovers
  case cancelled =>
    intro ref' hcancelled
    by_cases heq : ref' = ref
    · exact ⟨call.issuedAt, List.mem_append_right _ (heq ▸ List.mem_singleton_self _)⟩
    · have hsame : s.lifecycle.registry.isCancelled ref' = true := by
        rw [← hcancelled]
        show _ = Option.getD (Option.map _ (List.modify _ _ _)[ref']?) _
        rw [List.getElem?_modify_ne _ _ (Ne.symm heq)]
        rfl
      obtain ⟨issuedAt, hmem⟩ := h.cancelled ref' hsame
      exact ⟨issuedAt, List.mem_append_left _ hmem⟩

/-- A deferral to a session that has yet to register. -/
theorem defer (h : s.Settled) (hc : s.calls[c]? = some call) (htimely : s.Timely call)
    (hlookup : s.lifecycle.registry.running.lookup call.sessionId = none)
    (hawaits : s.AwaitsRegister call.sessionId) :
    (s.defer c call.sessionId call.issuedAt).Settled := by
  constructor
  case tidy => exact h.tidy.frame rfl (fun _ _ hrow _ => hrow) rfl fun ref e he => ⟨e, he, rfl⟩
  case pending =>
    intro id hpending
    by_cases hid : id = call.sessionId
    · subst hid
      show s.lifecycle.Awaits _ (Function.update s.deferredBy call.sessionId call.issuedAt _)
      rw [Function.update_self]
      obtain ⟨row, hrow, hstatus⟩ := Option.map_eq_some_iff.mp hawaits.1
      refine ⟨⟨row, hrow, hstatus⟩, fun i run hrun hid hlive => ⟨?_, htimely.lt hrun hid⟩⟩
      have hhooks := hawaits.2 run (List.mem_of_getElem? hrun) hid
      have hunlisted : run.phase.registered ≠ true := fun hreg =>
        h.tidy.listed i run hrun hreg (hid ▸ hlookup)
      exact SessionPhase.starting_of_live hlive hunlisted hhooks
    · have hpending : s.lifecycle.registry.pendingCancellations.lookup id ≠ none := by
        intro hnone
        exact hpending ((AList.lookup_insert_ne hid).trans hnone)
      show s.lifecycle.Awaits id (Function.update s.deferredBy call.sessionId call.issuedAt id)
      rw [Function.update_of_ne hid]
      exact h.pending id hpending
  case calls => exact h.calls_goto hc nofun
  case logged => exact h.logged
  case cancelled => exact h.cancelled

/-- A deferred cancellation is delivered to a run that its call knew of. -/
theorem covers_delivered (h : s.Settled) {i : ℕ} {run : SessionRun}
    (hi : s.lifecycle.runs[i]? = some run) (hphase : run.phase = .starting) :
    ∀ d ∈ s.delivered (.register i), (s.lifecycle.registerRun i run.sessionId).Covers d.1 d.2 := by
  intro d hd
  simp only [delivered, hi] at hd
  split at hd
  · rename_i reason hreason
    have hpending : s.lifecycle.registry.pendingCancellations.lookup run.sessionId ≠ none := by
      rw [hreason]
      exact Option.some_ne_none reason
    have hlive : run.phase.live = true := by
      rw [hphase]
      rfl
    obtain ⟨-, hknown⟩ := (h.pending _ hpending).2 i run hi rfl hlive
    rw [List.mem_singleton.mp hd]
    constructor
    · show _ < (s.lifecycle.registry.sessions ++ [_]).length
      rw [List.length_append, List.length_singleton]
      omega
    · intro j r hj hr hresumed
      rcases of_getElem?_modify hi hj with ⟨rfl, rfl⟩ | ⟨-, hj⟩
      · exact hknown hresumed
      · obtain ⟨e, he, -⟩ := h.tidy.owner j r _ hj hr
        exact absurd (List.getElem?_eq_some_iff.mp he).1 (lt_irrefl _)
  · cases hd

theorem cancelled_register (h : s.Settled) {i : ℕ} {run : SessionRun}
    (hi : s.lifecycle.runs[i]? = some run) {ref : ℕ}
    (hcancelled : (s.lifecycle.registry.register run.sessionId).1.isCancelled ref = true) :
    ∃ issuedAt, (ref, issuedAt) ∈ s.cancellations ++ s.delivered (.register i) := by
  have hget : (s.lifecycle.registry.register run.sessionId).1.sessions
      = s.lifecycle.registry.sessions ++ [s.lifecycle.registry.registered run.sessionId] := rfl
  obtain ⟨e, he, htrue⟩ : ∃ e, (s.lifecycle.registry.register run.sessionId).1.sessions[ref]? = some e
      ∧ e.cancelled = true := by
    simpa [SessionRegistry.isCancelled, Option.getD_eq_iff] using hcancelled
  rw [hget] at he
  rcases of_getElem?_concat he with he | ⟨rfl, rfl⟩
  · obtain ⟨issuedAt, hmem⟩ := h.cancelled ref (by simp [SessionRegistry.isCancelled, he, htrue])
    exact ⟨issuedAt, List.mem_append_left _ hmem⟩
  · refine ⟨s.deferredBy run.sessionId, List.mem_append_right _ ?_⟩
    rcases s.lifecycle.registry.registered_eq_fresh_or_pending run.sessionId with
      hfresh | ⟨reason, hpending, -⟩
    · rw [hfresh] at htrue
      cases htrue
    · simp only [delivered, hi, hpending]
      exact List.mem_singleton_self _

/-- The steps of the runs. -/
theorem session (h : s.Settled) {l : LifecycleStep} {u : Lifecycle} (he : s.lifecycle.Effect l u) :
    { s with lifecycle := u, cancellations := s.cancellations ++ s.delivered l }.Settled := by
  have hcalls : ∀ call ∈ s.calls, ∀ ref, call.pc = .found ref → u.Covers ref call.issuedAt :=
    fun call hmem ref hfound => (h.calls call hmem ref hfound).effect he
  have hlogged : ∀ d ∈ s.cancellations, u.Covers d.1 d.2 := fun d hd => (h.logged d hd).effect he
  rcases he.records with ⟨i, run, rfl, hrun, hphase, rfl⟩ | ⟨hl, hrecords, hpendings⟩
  · constructor
    case tidy => exact h.tidy.effect he
    case pending =>
      intro id hpending
      have hid : id ≠ run.sessionId := by
        rintro rfl
        exact hpending (AList.lookup_erase _ _)
      have hold : s.lifecycle.registry.pendingCancellations.lookup id ≠ none := by
        intro hnone
        exact hpending ((AList.lookup_erase_ne hid).trans hnone)
      refine (h.pending id hold).effect he fun j run' hj hrun' => ?_
      obtain rfl := LifecycleStep.register.inj hj
      rw [← Option.some.inj (hrun.symm.trans hrun')]
      exact hid.symm
    case calls => exact hcalls
    case logged =>
      intro d hd
      rcases List.mem_append.mp hd with hd | hd
      · exact hlogged d hd
      · exact h.covers_delivered hrun hphase d hd
    case cancelled => exact fun ref hcancelled => h.cancelled_register hrun hcancelled
  · have hnone : s.delivered l = [] := by
      cases l with
      | register i => exact absurd rfl (hl i)
      | create | claim | resume | startFails | agentEnds | decide | deregister | transition => rfl
    rw [hnone, List.append_nil]
    constructor
    case tidy => exact h.tidy.effect he
    case pending =>
      intro id hpending
      rw [hpendings] at hpending
      exact (h.pending id hpending).effect he fun j _ hj => absurd hj (hl j)
    case calls => exact hcalls
    case logged => exact hlogged
    case cancelled =>
      intro ref hcancelled
      simp only [SessionRegistry.isCancelled, hrecords] at hcancelled
      exact h.cancelled ref hcancelled

theorem advanceCall (h : s.Settled) (hc : s.calls[c]? = some call) (hclean : s.CleanCancel call)
    {stored : Bool} (hstep : s.advanceCall c call stored = some t) : t.Settled := by
  unfold RepoCancelState.advanceCall at hstep
  unfold CleanCancel at hclean
  cases hpc : call.pc with
  | begun =>
    simp only [hpc] at hstep
    obtain rfl := Option.some.inj hstep
    split
    · exact h.dequeue hc
    · exact h.goto hc nofun
  | lookUp =>
    simp only [hpc] at hstep hclean
    split at hstep
    · rename_i ref hlookup
      obtain rfl := Option.some.inj hstep
      have htimely := hclean (by rw [hlookup]; exact Option.some_ne_none ref)
      refine h.goto hc fun ref' heq => ?_
      obtain rfl := RepoCancelPc.found.inj heq
      exact h.covers_of_lookup htimely hlookup
    · obtain rfl := Option.some.inj hstep
      exact h.goto hc nofun
  | found ref =>
    simp only [hpc] at hstep
    obtain rfl := Option.some.inj hstep
    exact h.signal hc hpc
  | missed =>
    simp only [hpc] at hstep
    obtain rfl := Option.some.inj hstep
    refine h.goto hc fun ref heq => ?_
    split at heq <;> cases heq
  | deferring =>
    simp only [hpc] at hstep hclean
    split at hstep
    · rename_i ref hlookup
      obtain rfl := Option.some.inj hstep
      refine h.goto hc fun ref' heq => ?_
      obtain rfl := RepoCancelPc.found.inj heq
      exact h.covers_of_lookup hclean.1 hlookup
    · rename_i hlookup
      obtain rfl := Option.some.inj hstep
      exact h.defer hc hclean.1 hlookup (hclean.2 hlookup)
  | done =>
    simp only [hpc] at hstep
    cases hstep

/-- Every clean step keeps the invariant. -/
theorem step (s : RepoCancelState) (l : RepoCancelStep) (t : RepoCancelState) (h : s.Settled)
    (hclean : s.CleanStep l) (hstep : s.step l = some t) : t.Settled := by
  cases l with
  | session l =>
    obtain ⟨u, hu, rfl⟩ := Option.map_eq_some_iff.mp hstep
    exact h.session (Lifecycle.effect_of_step hu)
  | issue id =>
    obtain rfl := Option.some.inj hstep
    refine ⟨h.tidy, h.pending, fun call hmem ref hfound => ?_, h.logged, h.cancelled⟩
    rcases List.mem_append.mp hmem with hmem | hmem
    · exact h.calls call hmem ref hfound
    · rw [List.mem_singleton.mp hmem] at hfound
      cases hfound
  | advance c stored =>
    simp only [RepoCancelState.step] at hstep
    split at hstep
    · rename_i call hc
      exact h.advanceCall hc (hclean call hc) hstep
    · cases hstep

end Settled

/-- In every interleaving in which the calls take effect before another resume and defer only to a run
that has yet to register, no cancellation is left behind for a terminal row, and a resumed run is
cancelled only by calls that were issued after its resume. -/
theorem no_stale_cancellation (rows : SessionTable) (ls : List RepoCancelStep) (s : RepoCancelState)
    (hclean : Along step CleanStep (init rows) ls) (h : run step (init rows) ls = some s) :
    s.NoStaleCancellation :=
  (run_invariant_along Settled.step (init_settled rows) hclean h).noStaleCancellation

/-- One session, which is queued. -/
def queuedSession : SessionTable := fun id => if id = "s" then some ⟨.queued, none⟩ else none

/-- A call defers in the startup of the first run; another one cancels the resumed run. -/
def cancelledTwice : List RepoCancelStep :=
  [.session (.claim "s"), .issue "s", .advance 0 true, .advance 0 true, .advance 0 true,
    .advance 0 true, .session (.register 0), .session (.agentEnds 0 true), .session (.decide 0),
    .session (.deregister 0), .session (.transition 0 true), .session (.resume "s"),
    .session (.register 1), .issue "s", .advance 1 true, .advance 1 true, .advance 1 true]

theorem cancelledTwice_not_stale :
    Along step CleanStep (init queuedSession) cancelledTwice ∧
      ∃ s, run step (init queuedSession) cancelledTwice = some s ∧
        s.lifecycle.registry.isCancelled 1 = true ∧ s.NoStaleCancellation := by
  have hclean : Along step CleanStep (init queuedSession) cancelledTwice := by decide
  have hrun : (run step (init queuedSession) cancelledTwice).map
      (·.lifecycle.registry.isCancelled 1) = some true := by decide
  obtain ⟨s, hs, hcancelled⟩ := Option.map_eq_some_iff.mp hrun
  exact ⟨hclean, s, hs, hcancelled, no_stale_cancellation queuedSession cancelledTwice s hclean hs⟩

/-- A call arrives while the hooks of the first run are running. -/
def cancelledInHooks : List RepoCancelStep :=
  [.session (.claim "s"), .session (.register 0), .session (.agentEnds 0 true), .session (.decide 0),
    .session (.deregister 0), .issue "s", .advance 0 true, .advance 0 true, .advance 0 true,
    .advance 0 true, .session (.transition 0 true)]

/-- The session is completed with a cancellation left behind, and the next run is cancelled as soon
as it registers, by a call that was issued before the resume. -/
theorem cancelledInHooks_leaks :
    (∃ s, run step (init queuedSession) cancelledInHooks = some s ∧
      s.lifecycle.rows "s" = some ⟨.completed, some .turnComplete⟩ ∧
      s.lifecycle.registry.pendingCancellations.lookup "s" = some .projectSessionInterrupted ∧
      ¬s.NoStaleCancellation) ∧
    ∃ s, run step (init queuedSession)
        (cancelledInHooks ++ [.session (.resume "s"), .session (.register 1)]) = some s ∧
      s.lifecycle.runs[1]? = some ⟨"s", true, some 1, .agent⟩ ∧
      s.lifecycle.registry.isCancelled 1 = true ∧ s.cancellations = [(1, 1)] ∧
      ¬s.NoStaleCancellation := by
  constructor
  · have hrun : (run step (init queuedSession) cancelledInHooks).map (fun s =>
        (s.lifecycle.rows "s", s.lifecycle.registry.pendingCancellations.lookup "s"))
        = some (some ⟨.completed, some .turnComplete⟩, some .projectSessionInterrupted) := by decide
    obtain ⟨s, hs, heq⟩ := Option.map_eq_some_iff.mp hrun
    obtain ⟨hrow, hpending⟩ := Prod.mk.inj heq
    refine ⟨s, hs, hrow, hpending, fun hstale => ?_⟩
    have hnone := hstale.1 "s" _ hrow rfl
    rw [hpending] at hnone
    cases hnone
  · have hrun : (run step (init queuedSession)
        (cancelledInHooks ++ [.session (.resume "s"), .session (.register 1)])).map (fun s =>
        (s.lifecycle.runs[1]?, s.lifecycle.registry.isCancelled 1, s.cancellations))
        = some (some ⟨"s", true, some 1, .agent⟩, true, [(1, 1)]) := by decide
    obtain ⟨s, hs, heq⟩ := Option.map_eq_some_iff.mp hrun
    simp only [Prod.mk.injEq] at heq
    obtain ⟨hresumed, hcancelled, hlog⟩ := heq
    refine ⟨s, hs, hresumed, hcancelled, hlog, fun hstale => ?_⟩
    have hmem : (1, 1) ∈ s.cancellations := by
      rw [hlog]
      exact List.mem_singleton_self _
    have hlt := (hstale.2 1 _ 1 hresumed rfl rfl hcancelled).2 1 hmem
    omega

end RepoCancelState

end Builderbot.Staged
