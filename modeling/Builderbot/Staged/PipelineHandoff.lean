import Mathlib.Data.List.Infix
import Builderbot.Lib.Run
import Builderbot.Staged.SessionRegistry

/-!
# Cancelling a session whose pipeline hands off to an agent

`start_pipeline_session`, `run_pipeline` and `start_session` of
`apps/staged/src-tauri/src/session_runner.rs`, as far as they touch the registry and the token. A
pipeline registers its session, runs its steps and may hand off to an agent under the same session
id: it does not deregister, and `start_session` registers again, with a new record and a new token.

A cancellation looks the record up under the registry lock and signals it after the lock is released.
When it signals the pipeline's record after the pipeline last looked at its token, the agent's record
does not know of it. `cancellation_honoured` says that this is the only way to lose one.
-/

namespace Builderbot.Staged

/-! ## The steps of a pipeline -/

/-- `FailureStrategy`. -/
inductive FailureStrategy where
  | abort (marker : Option String)
  | handoffToAi
  | continue
deriving DecidableEq, Repr

/-- `PipelineStep`. -/
inductive PipelineStep where
  | command (onFailure : FailureStrategy)
  | aiHandoff
deriving DecidableEq, Repr

/-- The result of a command step: `run_pipeline_command` completes (with or without success, where
`output` is the text searched for a marker), is cancelled, or fails to spawn. -/
inductive CommandResult where
  | succeeded
  | failed (output : String)
  | cancelled
  | spawnError
deriving DecidableEq, Repr

/-- `PipelineOutcome`. -/
inductive PipelineOutcome where
  | completedWithoutAi
  | handedOffToAi
  | aborted
  | cancelled
deriving DecidableEq, Repr

/-- What `run_pipeline` returns after a command, or `none` when it goes on to the next step. -/
def commandOutcome (onFailure : FailureStrategy) : CommandResult → Option PipelineOutcome
  | .succeeded => none
  | .failed output =>
    match onFailure with
    | .abort (some marker) =>
      if marker.toList <:+: output.toList then some .aborted
      -- without its marker the failure is one for the agent
      else some .handedOffToAi
    | .abort none => some .aborted
    | .handoffToAi => some .handedOffToAi
    | .continue => none
  | .cancelled => some .cancelled
  | .spawnError => some .handedOffToAi

/-! ## The system -/

/-- Where the run of a session stands. `token` refers to the record whose token the run observes. -/
inductive RunPhase where
  | notStarted
  /-- At the head of the loop of `run_pipeline`. -/
  | pipeline (token : ℕ) (steps : List PipelineStep)
  /-- A command step is running. -/
  | command (token : ℕ) (onFailure : FailureStrategy) (steps : List PipelineStep)
  /-- `run_pipeline` has returned `HandedOffToAi`; `start_session` has not registered yet. -/
  | handoff (token : ℕ)
  /-- The agent is running. -/
  | agent (token : ℕ)
  /-- The outcome is decided and `deregister` comes next. -/
  | ending (token : ℕ)
  | finished
deriving DecidableEq, Repr

/-- The token that a live run observes. -/
def RunPhase.token : RunPhase → Option ℕ
  | notStarted | finished => none
  | pipeline token _ | command token _ _ | handoff token | agent token | ending token => some token

/-- A cancel call that has looked up a record and has not signalled it yet. -/
structure CancelCall where
  sessionId : String
  ref : ℕ
  reason : CompletionReason
deriving DecidableEq, Repr

/-- The registry, the run of each session, the cancel calls in progress, and a log of the
cancellations that were acknowledged: those whose call returned `true` and those that were deferred. -/
structure HandoffState where
  registry : SessionRegistry
  phase : String → RunPhase
  calls : List CancelCall
  acknowledged : List (String × CompletionReason)

/-- The steps of the system. -/
inductive HandoffStep where
  /-- `cancel_with_completion_reason` up to the release of the lock; `cancel` is the case
  `interrupted`. -/
  | cancel (sessionId : String) (reason : CompletionReason)
  /-- `cancel_or_defer` up to the release of the lock. -/
  | cancelOrDefer (sessionId : String) (reason : CompletionReason)
  /-- A cancel call signals the record it looked up and returns `true`. -/
  | signal (call : CancelCall)
  /-- `start_pipeline_session` registers the session. -/
  | startPipeline (sessionId : String) (steps : List PipelineStep)
  /-- `run_pipeline` checks the token and begins the next step, or finds no step left. -/
  | nextStep (sessionId : String)
  /-- A command step ends. -/
  | commandDone (sessionId : String) (result : CommandResult)
  /-- `start_session` fails before it registers; `finish_failed_pipeline_handoff_start` deregisters. -/
  | handoffFailed (sessionId : String)
  /-- `start_session` registers the session for the agent. -/
  | startSession (sessionId : String)
  /-- The agent's run ends. -/
  | agentDone (sessionId : String)
  | deregister (sessionId : String)
deriving DecidableEq, Repr

namespace HandoffState

/-- Nothing has started. -/
def init : HandoffState := ⟨.new, fun _ => .notStarted, [], []⟩

/-- Move the run of a session to another phase. -/
def setPhase (s : HandoffState) (sessionId : String) (phase : RunPhase) : HandoffState :=
  { s with phase := Function.update s.phase sessionId phase }

/-- Register a session and move its run to a phase with the new token. -/
def registerAs (s : HandoffState) (sessionId : String) (phase : ℕ → RunPhase) : HandoffState :=
  { s with
    registry := (s.registry.register sessionId).1
    phase := Function.update s.phase sessionId (phase (s.registry.register sessionId).2) }

/-- Deregister a session, whose run is over. -/
def finish (s : HandoffState) (sessionId : String) : HandoffState :=
  { s with
    registry := s.registry.deregister sessionId
    phase := Function.update s.phase sessionId .finished }

/-- A cancel call has found a record. -/
def beginCall (s : HandoffState) (call : CancelCall) : HandoffState :=
  { s with calls := s.calls ++ [call] }

/-- A cancellation is deferred until the session registers. -/
def deferCall (s : HandoffState) (sessionId : String) (reason : CompletionReason) : HandoffState :=
  { s with
    registry := s.registry.deferCancellation sessionId reason
    acknowledged := s.acknowledged ++ [(sessionId, reason)] }

/-- A cancel call signals its record. -/
def signalCall (s : HandoffState) (call : CancelCall) : HandoffState :=
  { s with
    registry := s.registry.applyCancellation call.ref call.reason
    calls := s.calls.erase call
    acknowledged := s.acknowledged ++ [(call.sessionId, call.reason)] }

/-- The phase after `run_pipeline` has looked at the next step and at its token. -/
def nextPhase (cancelled : Bool) (token : ℕ) : List PipelineStep → RunPhase
  | [] => .ending token
  | step :: steps =>
    if cancelled then .ending token
    else match step with
      | .command onFailure => .command token onFailure steps
      | .aiHandoff => .handoff token

/-- The phase after a command step. -/
def commandPhase (token : ℕ) (onFailure : FailureStrategy) (steps : List PipelineStep)
    (result : CommandResult) : RunPhase :=
  match commandOutcome onFailure result with
  | none => .pipeline token steps
  | some .handedOffToAi => .handoff token
  | some _ => .ending token

/-- One step, `none` when it is not possible. A command is reported as cancelled only when the token
is. -/
def step (s : HandoffState) : HandoffStep → Option HandoffState
  | .cancel sessionId reason =>
    match s.registry.running.lookup sessionId with
    | some ref => some (s.beginCall ⟨sessionId, ref, reason⟩)
    | none => some s
  | .cancelOrDefer sessionId reason =>
    match s.registry.running.lookup sessionId with
    | some ref => some (s.beginCall ⟨sessionId, ref, reason⟩)
    | none => some (s.deferCall sessionId reason)
  | .signal call => if call ∈ s.calls then some (s.signalCall call) else none
  | .startPipeline sessionId steps =>
    match s.phase sessionId with
    | .notStarted => some (s.registerAs sessionId fun token => .pipeline token steps)
    | _ => none
  | .nextStep sessionId =>
    match s.phase sessionId with
    | .pipeline token steps =>
      some (s.setPhase sessionId (nextPhase (s.registry.isCancelled token) token steps))
    | _ => none
  | .commandDone sessionId result =>
    match s.phase sessionId with
    | .command token onFailure steps =>
      if result = .cancelled ∧ s.registry.isCancelled token = false then none
      else some (s.setPhase sessionId (commandPhase token onFailure steps result))
    | _ => none
  | .handoffFailed sessionId =>
    match s.phase sessionId with
    | .handoff _ => some (s.finish sessionId)
    | _ => none
  | .startSession sessionId =>
    match s.phase sessionId with
    | .handoff _ => some (s.registerAs sessionId .agent)
    | _ => none
  | .agentDone sessionId =>
    match s.phase sessionId with
    | .agent token => some (s.setPhase sessionId (.ending token))
    | _ => none
  | .deregister sessionId =>
    match s.phase sessionId with
    | .ending _ => some (s.finish sessionId)
    | _ => none

/-- Every acknowledged cancellation of a live run has cancelled the token the run observes, and the
registry reports the reason of one of them. -/
def CancellationsHonoured (s : HandoffState) : Prop :=
  ∀ sessionId token reason, (s.phase sessionId).token = some token →
    (sessionId, reason) ∈ s.acknowledged →
      s.registry.isCancelled token = true ∧
        ∃ reported, (sessionId, reported) ∈ s.acknowledged ∧
          s.registry.cancellationCompletionReason sessionId = some reported

/-- When `start_session` registers again, the record it replaces is not cancelled and no cancel call
is about to signal it. -/
def CleanHandoff (s : HandoffState) : HandoffStep → Prop
  | .startSession sessionId =>
    (∀ token ∈ (s.phase sessionId).token, s.registry.isCancelled token = false) ∧
      ∀ call ∈ s.calls, call.sessionId ≠ sessionId
  | _ => True

instance : ∀ (s : HandoffState) (l : HandoffStep), Decidable (CleanHandoff s l)
  | s, .startSession sessionId => inferInstanceAs (Decidable
      ((∀ token ∈ (s.phase sessionId).token, s.registry.isCancelled token = false) ∧
        ∀ call ∈ s.calls, call.sessionId ≠ sessionId))
  | _, .cancel .. | _, .cancelOrDefer .. | _, .signal .. | _, .startPipeline .. | _, .nextStep ..
  | _, .commandDone .. | _, .handoffFailed .. | _, .agentDone .. | _, .deregister .. =>
    .isTrue trivial

/-! ## The invariant -/

/-- The registry maps each session to the record its live run observes, every record and every call
belongs to the session it is registered or made for, and what has been acknowledged has reached the
live record or waits for the session to register. -/
structure Consistent (s : HandoffState) : Prop where
  registered : ∀ sid, s.registry.running.lookup sid = (s.phase sid).token
  owner : ∀ sid token, (s.phase sid).token = some token →
    ∃ e, s.registry.sessions[token]? = some e ∧ e.sessionId = sid
  calls : ∀ c ∈ s.calls, (∃ e, s.registry.sessions[c.ref]? = some e ∧ e.sessionId = c.sessionId) ∧
    ∀ token, (s.phase c.sessionId).token = some token → c.ref = token
  calls_started : ∀ c ∈ s.calls, s.phase c.sessionId ≠ .notStarted
  reasons : ∀ (ref : ℕ) (e : RunningSession) reason, s.registry.sessions[ref]? = some e →
    e.cancellationCompletionReason = some reason → (e.sessionId, reason) ∈ s.acknowledged
  pending : ∀ sid reason, s.registry.pendingCancellations.lookup sid = some reason →
    (sid, reason) ∈ s.acknowledged
  waiting : ∀ sid reason, s.phase sid = .notStarted → (sid, reason) ∈ s.acknowledged →
    s.registry.pendingCancellations.lookup sid ≠ none
  honoured : ∀ sid token reason (e : RunningSession), (s.phase sid).token = some token →
    (sid, reason) ∈ s.acknowledged → s.registry.sessions[token]? = some e →
    e.cancelled = true ∧ e.cancellationCompletionReason ≠ none

theorem init_consistent : init.Consistent where
  registered _ := rfl
  owner _ _ h := by cases h
  calls _ h := by cases h
  calls_started _ h := by cases h
  reasons _ _ _ h := by simp [init, SessionRegistry.new] at h
  pending _ _ h := by cases h
  waiting _ _ _ h := by cases h
  honoured _ _ _ _ _ h := by cases h

theorem nextPhase_token (cancelled : Bool) (token : ℕ) (steps : List PipelineStep) :
    (nextPhase cancelled token steps).token = some token := by
  cases steps with
  | nil => rfl
  | cons step steps =>
    simp only [nextPhase]
    split
    · rfl
    · cases step <;> rfl

theorem commandPhase_token (token : ℕ) (onFailure : FailureStrategy) (steps : List PipelineStep)
    (result : CommandResult) :
    (commandPhase token onFailure steps result).token = some token := by
  simp only [commandPhase]
  split <;> rfl

theorem token_ne_notStarted {phase : RunPhase} {token : ℕ} (h : phase.token = some token) :
    phase ≠ .notStarted := by
  rintro rfl
  cases h

namespace Consistent

variable {s : HandoffState}

/-- The invariant gives what is to be shown of the live runs. -/
theorem cancellationsHonoured (h : s.Consistent) : s.CancellationsHonoured := by
  intro sid token reason htoken hack
  obtain ⟨e, he, hsid⟩ := h.owner sid token htoken
  obtain ⟨hcancelled, hreason⟩ := h.honoured sid token reason e htoken hack he
  obtain ⟨reported, hreported⟩ := Option.ne_none_iff_exists'.mp hreason
  refine ⟨by simp [SessionRegistry.isCancelled, he, hcancelled], reported, ?_, ?_⟩
  · exact hsid ▸ h.reasons token e reported he hreported
  · simp [SessionRegistry.cancellationCompletionReason, h.registered sid, htoken, he, hreported]

theorem beginCall (h : s.Consistent) {sid : String} {ref : ℕ}
    (hlookup : s.registry.running.lookup sid = some ref) (reason : CompletionReason) :
    (s.beginCall ⟨sid, ref, reason⟩).Consistent := by
  have htoken : (s.phase sid).token = some ref := by rw [← h.registered sid, hlookup]
  refine ⟨h.registered, h.owner, ?calls, ?calls_started, h.reasons,
    h.pending, h.waiting, h.honoured⟩
  case calls =>
    intro c hc
    rcases List.mem_append.mp hc with hc | hc
    · exact h.calls c hc
    · obtain rfl := List.mem_singleton.mp hc
      refine ⟨h.owner sid ref htoken, fun token ht => ?_⟩
      exact Option.some.inj (htoken.symm.trans ht)
  case calls_started =>
    intro c hc
    rcases List.mem_append.mp hc with hc | hc
    · exact h.calls_started c hc
    · obtain rfl := List.mem_singleton.mp hc
      exact token_ne_notStarted htoken

theorem deferCall (h : s.Consistent) {sid : String}
    (hlookup : s.registry.running.lookup sid = none) (reason : CompletionReason) :
    (s.deferCall sid reason).Consistent := by
  have htoken : (s.phase sid).token = none := by rw [← h.registered sid, hlookup]
  have hlast : ∀ sid' r, (sid', r) ∈ s.acknowledged ++ [(sid, reason)] →
      sid' ≠ sid → (sid', r) ∈ s.acknowledged := by
    intro sid' r hmem hne
    rcases List.mem_append.mp hmem with hmem | hmem
    · exact hmem
    · exact absurd (Prod.mk.inj (List.mem_singleton.mp hmem)).1 hne
  refine ⟨h.registered, h.owner, h.calls, h.calls_started, ?reasons, ?pending, ?waiting, ?honoured⟩
  case reasons =>
    intro ref e r he hr
    exact List.mem_append_left _ (h.reasons ref e r he hr)
  case pending =>
    intro sid' r hr
    by_cases hsid : sid' = sid
    · subst hsid
      have hnew : (s.deferCall sid' reason).registry.pendingCancellations.lookup sid'
          = some reason := AList.lookup_insert _
      obtain rfl := Option.some.inj (hnew.symm.trans hr)
      exact List.mem_append_right _ (List.mem_singleton_self _)
    · refine List.mem_append_left _ (h.pending sid' r ?_)
      rw [← hr]
      exact (AList.lookup_insert_ne hsid).symm
  case waiting =>
    intro sid' r hphase hmem hnone
    by_cases hsid : sid' = sid
    · subst hsid
      simp [HandoffState.deferCall, SessionRegistry.deferCancellation] at hnone
    · refine h.waiting sid' r hphase (hlast sid' r hmem hsid) ?_
      rw [← hnone]
      exact (AList.lookup_insert_ne hsid).symm
  case honoured =>
    intro sid' token r e ht hmem he
    refine h.honoured sid' token r e ht (hlast sid' r hmem ?_) he
    -- the deferred session has no live run
    rintro rfl
    cases htoken.symm.trans ht

/-- Signalling a record changes that record only, and it is the live one of its session. -/
theorem signalCall (h : s.Consistent) {c : CancelCall} (hc : c ∈ s.calls) :
    (s.signalCall c).Consistent := by
  obtain ⟨⟨ec, hec, hcsid⟩, hcref⟩ := h.calls c hc
  have hget : ∀ ref, (s.signalCall c).registry.sessions[ref]?
      = if c.ref = ref then (s.registry.sessions[ref]?).map (·.applyCancellation c.reason)
        else s.registry.sessions[ref]? := by
    intro ref
    simp only [HandoffState.signalCall, SessionRegistry.applyCancellation, List.getElem?_modify]
    split <;> simp
  have hsame : (s.signalCall c).registry.sessions[c.ref]?
      = some (ec.applyCancellation c.reason) := by
    rw [hget, if_pos rfl, hec]
    rfl
  have hkeep : ∀ (ref : ℕ) (e : RunningSession), s.registry.sessions[ref]? = some e →
      ∃ e' : RunningSession, (s.signalCall c).registry.sessions[ref]? = some e' ∧ e'.sessionId = e.sessionId := by
    intro ref e he
    rw [hget, he]
    split
    · exact ⟨_, rfl, rfl⟩
    · exact ⟨_, rfl, rfl⟩
  have hold : ∀ x ∈ s.acknowledged, x ∈ (s.signalCall c).acknowledged :=
    fun x hx => List.mem_append_left _ hx
  refine ⟨h.registered, ?owner, ?calls, ?calls_started, ?reasons, ?pending, ?waiting, ?honoured⟩
  case owner =>
    intro sid token ht
    obtain ⟨e, he, hsid⟩ := h.owner sid token ht
    obtain ⟨e', he', hsid'⟩ := hkeep token e he
    exact ⟨e', he', hsid'.trans hsid⟩
  case calls =>
    intro d hd
    obtain ⟨⟨e, he, hsid⟩, href⟩ := h.calls d (List.mem_of_mem_erase hd)
    obtain ⟨e', he', hsid'⟩ := hkeep d.ref e he
    exact ⟨⟨e', he', hsid'.trans hsid⟩, href⟩
  case calls_started =>
    exact fun d hd => h.calls_started d (List.mem_of_mem_erase hd)
  case reasons =>
    intro ref e r he hr
    by_cases href : c.ref = ref
    · -- the signalled record: its reason is the new one, or an older one that stays
      subst href
      obtain rfl := Option.some.inj (he.symm.trans hsame)
      obtain ⟨hsid, -, hreason | ⟨hreason, -⟩⟩ :=
        SessionRegistry.applyCancellation_spec ec c.reason
      · obtain rfl := Option.some.inj (hr.symm.trans hreason)
        rw [hsid, hcsid]
        exact List.mem_append_right _ (List.mem_singleton_self _)
      · rw [hsid]
        exact hold _ (h.reasons c.ref ec r hec (hreason ▸ hr))
    · rw [hget, if_neg href] at he
      exact hold _ (h.reasons ref e r he hr)
  case pending =>
    exact fun sid r hr => hold _ (h.pending sid r hr)
  case waiting =>
    intro sid r hphase hmem
    rcases List.mem_append.mp hmem with hmem | hmem
    · exact h.waiting sid r hphase hmem
    · -- the session of a call has been registered, so it is not waiting
      have hsid : sid = c.sessionId := (Prod.mk.inj (List.mem_singleton.mp hmem)).1
      exact absurd (hsid ▸ hphase) (h.calls_started c hc)
  case honoured =>
    intro sid token r e ht hmem he
    by_cases href : c.ref = token
    · subst href
      obtain rfl := Option.some.inj (he.symm.trans hsame)
      obtain ⟨-, hcancelled, hreason | ⟨hreason, hne⟩⟩ :=
        SessionRegistry.applyCancellation_spec ec c.reason
      · exact ⟨hcancelled, by simp [hreason]⟩
      · exact ⟨hcancelled, by rw [hreason]; exact hne⟩
    · rw [hget, if_neg href] at he
      rcases List.mem_append.mp hmem with hmem | hmem
      · exact h.honoured sid token r e ht hmem he
      · -- the call was made for the record of the live run, so this record was signalled
        have hsid : sid = c.sessionId := (Prod.mk.inj (List.mem_singleton.mp hmem)).1
        exact absurd (hcref token (hsid ▸ ht)) href

/-- A step that moves runs, with or without their tokens, and leaves the records alone. -/
theorem of_phases (h : s.Consistent) {t : HandoffState}
    (hsessions : t.registry.sessions = s.registry.sessions)
    (hpending : t.registry.pendingCancellations = s.registry.pendingCancellations)
    (hcalls : t.calls = s.calls) (hack : t.acknowledged = s.acknowledged)
    (hregistered : ∀ sid, t.registry.running.lookup sid = (t.phase sid).token)
    (htoken : ∀ sid token, (t.phase sid).token = some token → (s.phase sid).token = some token)
    (hstarted : ∀ sid, t.phase sid = .notStarted → s.phase sid = .notStarted) : t.Consistent := by
  refine ⟨hregistered, ?owner, ?calls, ?calls_started, ?reasons, ?pending, ?waiting, ?honoured⟩
  case owner =>
    intro sid token ht
    rw [hsessions]
    exact h.owner sid token (htoken sid token ht)
  case calls =>
    intro c hc
    obtain ⟨hrecord, href⟩ := h.calls c (hcalls ▸ hc)
    rw [hsessions]
    exact ⟨hrecord, fun token ht => href token (htoken _ token ht)⟩
  case calls_started =>
    exact fun c hc hphase => h.calls_started c (hcalls ▸ hc) (hstarted _ hphase)
  case reasons =>
    rw [hsessions, hack]
    exact h.reasons
  case pending =>
    rw [hpending, hack]
    exact h.pending
  case waiting =>
    rw [hpending, hack]
    exact fun sid r hphase => h.waiting sid r (hstarted sid hphase)
  case honoured =>
    rw [hsessions, hack]
    exact fun sid token r e ht => h.honoured sid token r e (htoken sid token ht)

/-- A run that keeps its token keeps the invariant. -/
theorem setPhase (h : s.Consistent) {sid : String} {token : ℕ} {phase : RunPhase}
    (hold : (s.phase sid).token = some token) (hnew : phase.token = some token) :
    (s.setPhase sid phase).Consistent := by
  have htoken : ∀ sid', ((s.setPhase sid phase).phase sid').token = (s.phase sid').token := by
    intro sid'
    by_cases hsid : sid' = sid
    · subst hsid
      simp [HandoffState.setPhase, hold, hnew]
    · simp [HandoffState.setPhase, hsid]
  refine h.of_phases rfl rfl rfl rfl (fun sid' => (h.registered sid').trans (htoken sid').symm)
    (fun sid' t ht => (htoken sid').symm.trans ht) ?_
  intro sid' hphase
  by_cases hsid : sid' = sid
  · subst hsid
    have hphase' : phase = .notStarted := by simpa [HandoffState.setPhase] using hphase
    exact absurd hphase' (token_ne_notStarted hnew)
  · simpa [HandoffState.setPhase, hsid] using hphase

/-- Registering keeps the invariant when no call refers to an earlier record of the session and
every acknowledged cancellation of it is still pending. -/
theorem registerAs (h : s.Consistent) {sid : String} {phase : ℕ → RunPhase}
    (hphase : ∀ token, (phase token).token = some token)
    (hcalls : ∀ c ∈ s.calls, c.sessionId ≠ sid)
    (hpending : ∀ r, (sid, r) ∈ s.acknowledged →
      s.registry.pendingCancellations.lookup sid ≠ none) :
    (s.registerAs sid phase).Consistent := by
  have hlen : ∀ {ref : ℕ} {e : RunningSession}, s.registry.sessions[ref]? = some e →
      ref < s.registry.sessions.length := fun he => (List.getElem?_eq_some_iff.mp he).1
  have hget : ∀ {ref : ℕ} {e : RunningSession}, s.registry.sessions[ref]? = some e →
      (s.registerAs sid phase).registry.sessions[ref]? = some e := by
    intro ref e he
    exact (s.registry.getElem?_register_of_lt sid (hlen he)).trans he
  have hself : ((s.registerAs sid phase).phase sid).token = some s.registry.sessions.length := by
    simp [HandoffState.registerAs, SessionRegistry.register, hphase]
  have hother : ∀ {sid' : String}, sid' ≠ sid →
      (s.registerAs sid phase).phase sid' = s.phase sid' := by
    intro sid' hne
    simp [HandoffState.registerAs, hne]
  refine ⟨?registered, ?owner, ?calls, ?calls_started, ?reasons, ?pending, ?waiting, ?honoured⟩
  case registered =>
    intro sid'
    by_cases hsid : sid' = sid
    · subst hsid
      rw [hself]
      exact AList.lookup_insert _
    · rw [hother hsid, ← h.registered sid']
      exact AList.lookup_insert_ne hsid
  case owner =>
    intro sid' token ht
    by_cases hsid : sid' = sid
    · subst hsid
      obtain rfl := Option.some.inj (hself.symm.trans ht)
      exact ⟨_, s.registry.getElem?_register_self sid', s.registry.registered_sessionId sid'⟩
    · rw [hother hsid] at ht
      obtain ⟨e, he, heq⟩ := h.owner sid' token ht
      exact ⟨e, hget he, heq⟩
  case calls =>
    intro c hc
    obtain ⟨⟨e, he, heq⟩, href⟩ := h.calls c hc
    refine ⟨⟨e, hget he, heq⟩, ?_⟩
    rw [hother (hcalls c hc)]
    exact href
  case calls_started =>
    intro c hc
    rw [hother (hcalls c hc)]
    exact h.calls_started c hc
  case reasons =>
    intro ref e r he hr
    rcases of_getElem?_concat he with he | ⟨rfl, rfl⟩
    · exact h.reasons ref e r he hr
    · -- the new record can only have a reason that was deferred
      rw [s.registry.registered_sessionId]
      rcases s.registry.registered_eq_fresh_or_pending sid with hfresh | ⟨r', hp, hr'⟩
      · rw [hfresh] at hr
        cases hr
      · obtain rfl := Option.some.inj (hr.symm.trans hr')
        exact h.pending sid r hp
  case pending =>
    intro sid' r hr
    refine h.pending sid' r ?_
    by_cases hsid : sid' = sid
    · subst hsid
      have hnone : (s.registerAs sid' phase).registry.pendingCancellations.lookup sid' = none :=
        AList.lookup_erase _ _
      rw [hnone] at hr
      cases hr
    · rw [← hr]
      exact (AList.lookup_erase_ne hsid).symm
  case waiting =>
    intro sid' r hnot hmem
    have hsid : sid' ≠ sid := by
      rintro rfl
      exact token_ne_notStarted hself hnot
    rw [hother hsid] at hnot
    rw [show (s.registerAs sid phase).registry.pendingCancellations.lookup sid'
      = s.registry.pendingCancellations.lookup sid' from AList.lookup_erase_ne hsid]
    exact h.waiting sid' r hnot hmem
  case honoured =>
    intro sid' token r e ht hmem he
    by_cases hsid : sid' = sid
    · -- the new record takes over the deferred cancellation
      subst hsid
      obtain rfl := Option.some.inj (hself.symm.trans ht)
      obtain rfl := Option.some.inj (he.symm.trans (s.registry.getElem?_register_self sid'))
      obtain ⟨r', hr'⟩ := Option.ne_none_iff_exists'.mp (hpending r hmem)
      obtain ⟨hcancelled, hreason⟩ := s.registry.registered_of_pending sid' hr'
      exact ⟨hcancelled, by simp [hreason]⟩
    · rw [hother hsid] at ht
      obtain ⟨e', he', -⟩ := h.owner sid' token ht
      obtain rfl := Option.some.inj (he.symm.trans (hget he'))
      exact h.honoured sid' token r e ht hmem he'

theorem finish (h : s.Consistent) (sid : String) : (s.finish sid).Consistent := by
  have hself : ((s.finish sid).phase sid) = .finished := by simp [HandoffState.finish]
  have hother : ∀ {sid' : String}, sid' ≠ sid → (s.finish sid).phase sid' = s.phase sid' := by
    intro sid' hne
    simp [HandoffState.finish, hne]
  refine h.of_phases rfl rfl rfl rfl ?registered ?token ?started
  case registered =>
    intro sid'
    by_cases hsid : sid' = sid
    · subst hsid
      rw [hself]
      exact AList.lookup_erase _ _
    · rw [hother hsid, ← h.registered sid']
      exact AList.lookup_erase_ne hsid
  case token =>
    intro sid' t ht
    by_cases hsid : sid' = sid
    · subst hsid
      rw [hself] at ht
      cases ht
    · rwa [hother hsid] at ht
  case started =>
    intro sid' hnot
    by_cases hsid : sid' = sid
    · subst hsid
      rw [hself] at hnot
      cases hnot
    · rwa [hother hsid] at hnot

end Consistent

/-- Every step keeps the invariant, a second registration under its condition. -/
theorem Consistent.step (s : HandoffState) (l : HandoffStep) (t : HandoffState)
    (h : s.Consistent) (hclean : s.CleanHandoff l) (hstep : s.step l = some t) : t.Consistent := by
  cases l with
  | cancel sid reason =>
    simp only [HandoffState.step] at hstep
    split at hstep
    · rename_i ref hlookup
      obtain rfl := Option.some.inj hstep
      exact h.beginCall hlookup reason
    · obtain rfl := Option.some.inj hstep
      exact h
  | cancelOrDefer sid reason =>
    simp only [HandoffState.step] at hstep
    split at hstep
    · rename_i ref hlookup
      obtain rfl := Option.some.inj hstep
      exact h.beginCall hlookup reason
    · rename_i hlookup
      obtain rfl := Option.some.inj hstep
      exact h.deferCall hlookup reason
  | signal call =>
    simp only [HandoffState.step] at hstep
    split at hstep
    · rename_i hcall
      obtain rfl := Option.some.inj hstep
      exact h.signalCall hcall
    · cases hstep
  | startPipeline sid steps =>
    simp only [HandoffState.step] at hstep
    split at hstep
    · rename_i hphase
      obtain rfl := Option.some.inj hstep
      refine h.registerAs (fun _ => rfl) ?_ (fun r hr => h.waiting sid r hphase hr)
      rintro c hc rfl
      exact h.calls_started c hc hphase
    · cases hstep
  | nextStep sid =>
    simp only [HandoffState.step] at hstep
    split at hstep
    · rename_i token steps hphase
      obtain rfl := Option.some.inj hstep
      exact h.setPhase (by rw [hphase]; rfl) (nextPhase_token ..)
    · cases hstep
  | commandDone sid result =>
    simp only [HandoffState.step] at hstep
    split at hstep
    · rename_i token onFailure steps hphase
      split at hstep
      · cases hstep
      · obtain rfl := Option.some.inj hstep
        exact h.setPhase (by rw [hphase]; rfl) (commandPhase_token ..)
    · cases hstep
  | handoffFailed sid =>
    simp only [HandoffState.step] at hstep
    split at hstep
    · obtain rfl := Option.some.inj hstep
      exact h.finish sid
    · cases hstep
  | startSession sid =>
    simp only [HandoffState.step] at hstep
    split at hstep
    · rename_i token hphase
      obtain rfl := Option.some.inj hstep
      obtain ⟨hlive, hcalls⟩ := hclean
      have htoken : (s.phase sid).token = some token := by rw [hphase]; rfl
      refine h.registerAs (fun _ => rfl) hcalls ?_
      -- the old record is not cancelled, so no cancellation was acknowledged
      intro r hr
      have hcancelled := (h.cancellationsHonoured sid token r htoken hr).1
      rw [hlive token htoken] at hcancelled
      cases hcancelled
    · cases hstep
  | agentDone sid =>
    simp only [HandoffState.step] at hstep
    split at hstep
    · rename_i token hphase
      obtain rfl := Option.some.inj hstep
      exact h.setPhase (by rw [hphase]; rfl) rfl
    · cases hstep
  | deregister sid =>
    simp only [HandoffState.step] at hstep
    split at hstep
    · obtain rfl := Option.some.inj hstep
      exact h.finish sid
    · cases hstep

/-- In every interleaving in which a session registers again only while its old record is neither
cancelled nor about to be, every acknowledged cancellation has reached the live run. -/
theorem cancellation_honoured (ls : List HandoffStep) (s : HandoffState)
    (hclean : Along step CleanHandoff init ls) (h : run step init ls = some s) :
    s.CancellationsHonoured :=
  (run_invariant_along Consistent.step init_consistent hclean h).cancellationsHonoured

/-- A pipeline whose first command fails hands off to the agent, which is then cancelled. -/
def cancelledAgent : List HandoffStep :=
  [.startPipeline "s" [.command .handoffToAi], .nextStep "s", .commandDone "s" (.failed "rejected"),
    .startSession "s", .cancel "s" .interrupted, .signal ⟨"s", 1, .interrupted⟩]

/-- The agent's token is cancelled. -/
theorem cancelledAgent_honoured :
    Along step CleanHandoff init cancelledAgent ∧
      ∃ s, run step init cancelledAgent = some s ∧ (s.phase "s").token = some 1 ∧
        ("s", .interrupted) ∈ s.acknowledged ∧ s.registry.isCancelled 1 = true := by
  have hclean : Along step CleanHandoff init cancelledAgent := by decide
  have hrun : (run step init cancelledAgent).map (fun s => ((s.phase "s").token, s.acknowledged))
      = some (some 1, [("s", .interrupted)]) := by decide
  obtain ⟨s, hs, heq⟩ := Option.map_eq_some_iff.mp hrun
  obtain ⟨htoken, hack⟩ := Prod.mk.inj heq
  have hmem : ("s", CompletionReason.interrupted) ∈ s.acknowledged := by
    rw [hack]
    exact List.mem_singleton_self _
  have hhonoured := cancellation_honoured cancelledAgent s hclean hs "s" 1 .interrupted htoken hmem
  exact ⟨hclean, s, hs, htoken, hmem, hhonoured.1⟩

/-- The same pipeline, cancelled after its command has failed and before the agent registers. -/
def cancelledHandoff : List HandoffStep :=
  [.startPipeline "s" [.command .handoffToAi], .nextStep "s", .commandDone "s" (.failed "rejected"),
    .cancel "s" .interrupted, .signal ⟨"s", 0, .interrupted⟩, .startSession "s"]

/-- The cancel call returned `true`, and the agent runs with a token that is not cancelled and no
reason on record. -/
theorem cancelledHandoff_lost :
    ∃ s, run step init cancelledHandoff = some s ∧ s.phase "s" = .agent 1 ∧
      ("s", .interrupted) ∈ s.acknowledged ∧ s.registry.isCancelled 1 = false ∧
      s.registry.cancellationCompletionReason "s" = none ∧ ¬s.CancellationsHonoured := by
  have hrun : (run step init cancelledHandoff).map (fun s => (s.phase "s", s.acknowledged,
      s.registry.isCancelled 1, s.registry.cancellationCompletionReason "s"))
      = some (.agent 1, [("s", .interrupted)], false, none) := by decide
  obtain ⟨s, hs, heq⟩ := Option.map_eq_some_iff.mp hrun
  simp only [Prod.mk.injEq] at heq
  obtain ⟨hphase, hack, hcancelled, hreason⟩ := heq
  have hmem : ("s", CompletionReason.interrupted) ∈ s.acknowledged := by
    rw [hack]
    exact List.mem_singleton_self _
  refine ⟨s, hs, hphase, hmem, hcancelled, hreason, ?_⟩
  intro hhonoured
  have htrue := (hhonoured "s" 1 .interrupted (by rw [hphase]; rfl) hmem).1
  rw [hcancelled] at htrue
  cases htrue

end HandoffState

end Builderbot.Staged
