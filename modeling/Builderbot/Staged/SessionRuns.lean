import Builderbot.Staged.BranchSessions
import Builderbot.Staged.SessionRegistry

/-!
# The runs of a session

A session row lives in the store and its cancellation token in the `SessionRegistry`; a run of the
session moves through both. The row is set to running first, by an insert, by the claim of a queued
session or by a resume. `start_session` of `session_runner.rs` then creates the driver and registers
the token. When the agent has ended, the thread reads the reason of a cancellation, looks at the
token, leaves the registry, runs the hooks and at last sets the terminal status of the row.

Nothing keeps these moments together, so each of them is a step of its own here. The rows are those of
`store/sessions.rs`, with the two columns that the statements about them are concerned with.
-/

namespace Builderbot.Staged

/-! ## The store -/

/-- Completed, error or cancelled. -/
def SessionStatus.isTerminal : SessionStatus → Bool
  | .queued | .running => false
  | .completed | .error | .cancelled => true

/-- `Session` of `store/models.rs`, as far as its status goes. -/
structure Session where
  status : SessionStatus
  completionReason : Option CompletionReason
deriving DecidableEq, Repr

/-- The session table. -/
abbrev SessionTable := String → Option Session

namespace SessionTable

variable (rows : SessionTable) (id : String)

/-- `UPDATE sessions … WHERE id = ?` with a condition on the status, and whether a row was updated. -/
def updateWhere (p : SessionStatus → Bool) (new : Session) : SessionTable × Bool :=
  match rows id with
  | some row => if p row.status then (Function.update rows id (some new), true) else (rows, false)
  | none => (rows, false)

/-- `update_session_status`. -/
def updateSessionStatus (new : Session) : SessionTable := (rows.updateWhere id (fun _ => true) new).1

/-- `transition_from_running`. -/
def transitionFromRunning (new : Session) : SessionTable × Bool :=
  rows.updateWhere id (· = .running) new

/-- `transition_from_active`. -/
def transitionFromActive (new : Session) : SessionTable × Bool :=
  rows.updateWhere id (fun status => status = .queued || status = .running) new

/-- `transition_from_queued`. -/
def transitionFromQueued (new : Session) : SessionTable × Bool :=
  rows.updateWhere id (· = .queued) new

/-- `transition_queued_to_running`. -/
def transitionQueuedToRunning : SessionTable × Bool :=
  rows.updateWhere id (· = .queued) ⟨.running, none⟩

/-- `transition_to_running`. -/
def transitionToRunning : SessionTable × Bool := rows.updateWhere id (· ≠ .running) ⟨.running, none⟩

/-- An update either finds no row that meets its condition or replaces that row. -/
theorem updateWhere_cases (p : SessionStatus → Bool) (new : Session) :
    (rows.updateWhere id p new = (rows, false) ∧ ∀ row, rows id = some row → p row.status = false) ∨
      ∃ row, rows id = some row ∧ p row.status = true ∧
        rows.updateWhere id p new = (Function.update rows id (some new), true) := by
  unfold updateWhere
  cases hrow : rows id with
  | none => exact .inl ⟨rfl, fun _ h => absurd h.symm (Option.some_ne_none _)⟩
  | some row =>
    by_cases hp : p row.status = true
    · exact .inr ⟨row, rfl, hp, if_pos hp⟩
    · refine .inl ⟨if_neg hp, fun row' h => ?_⟩
      rw [← Option.some.inj h]
      simpa using hp

theorem updateWhere_of_ne (p : SessionStatus → Bool) (new : Session) {k : String} (hne : k ≠ id) :
    (rows.updateWhere id p new).1 k = rows k := by
  rcases rows.updateWhere_cases id p new with ⟨heq, -⟩ | ⟨-, -, -, heq⟩
  · rw [heq]
  · rw [heq]
    exact Function.update_of_ne hne _ _

/-- An update of queued and running rows leaves a terminal row as it is. -/
theorem updateWhere_of_isTerminal {p : SessionStatus → Bool}
    (hp : ∀ status, p status = true → status.isTerminal = false) (new : Session) {k : String}
    {row : Session} (hrow : rows k = some row) (hterminal : row.status.isTerminal = true) :
    (rows.updateWhere id p new).1 k = some row := by
  by_cases hk : k = id
  · subst hk
    rcases rows.updateWhere_cases k p new with ⟨heq, -⟩ | ⟨row', hrow', hstatus, -⟩
    · rw [heq]
      exact hrow
    · rw [Option.some.inj (hrow.symm.trans hrow'), hp _ hstatus] at hterminal
      cases hterminal
  · rw [rows.updateWhere_of_ne id p new hk]
    exact hrow

end SessionTable

/-! ## The runs -/

/-- Where a run of a session stands. -/
inductive SessionPhase where
  /-- The row is running; `start_session` has not registered the token yet. -/
  | starting
  /-- `start_session` failed before it registered the token. -/
  | failed
  /-- The token is registered and the agent works. -/
  | agent
  /-- The agent has ended; the reason of a cancellation has been read from the registry. -/
  | ended (ok : Bool) (reason : CompletionReason)
  /-- The terminal status is decided. -/
  | decided (outcome : Session)
  /-- The session has left the registry and the post-completion hooks run. -/
  | hooks (outcome : Session)
  /-- `transition_from_running` has been called. -/
  | finished
deriving DecidableEq, Repr

namespace SessionPhase

/-- The run has yet to call `transition_from_running`. -/
def live : SessionPhase → Bool
  | failed | finished => false
  | _ => true

/-- The run has registered its token and not left the registry. -/
def registered : SessionPhase → Bool
  | agent | ended _ _ | decided _ => true
  | _ => false

/-- The run has left the registry and has yet to call `transition_from_running`. -/
def inHooks : SessionPhase → Bool
  | hooks _ => true
  | _ => false

theorem live_of_registered {phase : SessionPhase} (h : phase.registered = true) :
    phase.live = true := by
  cases phase <;> first | rfl | exact Bool.noConfusion h

/-- A live run is starting, in the registry or in its hooks. -/
theorem starting_of_live {phase : SessionPhase} (h : phase.live = true)
    (hregistered : phase.registered ≠ true) (hhooks : phase.inHooks = false) : phase = starting := by
  cases phase with
  | starting => rfl
  | failed | finished => cases h
  | agent | ended | decided => exact absurd rfl hregistered
  | hooks => cases hhooks

end SessionPhase

/-- A run of a session, with the token it was given. `resumed` tells a run that `resume_session` has
started from a first run; no operation reads it. -/
structure SessionRun where
  sessionId : String
  resumed : Bool
  token : Option ℕ := none
  phase : SessionPhase := .starting
deriving DecidableEq, Repr

/-- The registry, the session table and the runs in the order in which they set their row to
running. -/
structure Lifecycle where
  registry : SessionRegistry
  rows : SessionTable
  runs : List SessionRun

/-- The steps of the runs. -/
inductive LifecycleStep where
  /-- `create_session`: a row is inserted as queued, or as running for a run that starts. -/
  | create (sessionId : String) (queued : Bool)
  /-- A drain claims a queued session. -/
  | claim (sessionId : String)
  /-- `resume_session` up to its `transition_to_running`. -/
  | resume (sessionId : String)
  /-- `start_session` returns an error before it registers. -/
  | startFails (i : ℕ)
  | register (i : ℕ)
  /-- The agent's result is there and the thread reads the reason of a cancellation. -/
  | agentEnds (i : ℕ) (ok : Bool)
  /-- The thread looks at its token. -/
  | decide (i : ℕ)
  | deregister (i : ℕ)
  /-- The hooks are done; the update fails when the store does. -/
  | transition (i : ℕ) (stored : Bool)
deriving DecidableEq, Repr

/-- The run that takes the step, if it is not a new one. -/
def LifecycleStep.runIndex : LifecycleStep → Option ℕ
  | .create _ _ | .claim _ | .resume _ => none
  | .startFails i | .register i | .agentEnds i _ | .decide i | .deregister i | .transition i _ =>
    some i

namespace Lifecycle

/-- An application that has just started: the rows are what the last one left. -/
def init (rows : SessionTable) : Lifecycle := ⟨.new, rows, []⟩

/-- A run starts, with its row set to running. -/
def start (s : Lifecycle) (rows : SessionTable) (sessionId : String) (resumed : Bool) : Lifecycle :=
  { s with rows, runs := s.runs ++ [{ sessionId, resumed }] }

/-- A run moves on to another phase. -/
def moveTo (s : Lifecycle) (i : ℕ) (phase : SessionPhase) : Lifecycle :=
  { s with runs := s.runs.modify i ({ · with phase }) }

/-- The terminal status: `cancelled` whenever the token is, whatever the agent returned. -/
def outcome (cancelled ok : Bool) (reason : CompletionReason) : Session :=
  if cancelled then ⟨.cancelled, some reason⟩
  else if ok then ⟨.completed, some .turnComplete⟩
  else ⟨.error, some .crashed⟩

/-- Whether the token of a run is cancelled. -/
def tokenCancelled (s : Lifecycle) (run : SessionRun) : Bool :=
  (run.token.map s.registry.isCancelled).getD false

/-- `register`, in the run at `i`. -/
def registerRun (s : Lifecycle) (i : ℕ) (sessionId : String) : Lifecycle :=
  { s with
    registry := (s.registry.register sessionId).1
    runs := s.runs.modify i fun run =>
      { run with token := some (s.registry.register sessionId).2, phase := .agent } }

/-- `deregister`, in the run at `i`. -/
def deregisterRun (s : Lifecycle) (i : ℕ) (sessionId : String) (outcome : Session) : Lifecycle :=
  { s.moveTo i (.hooks outcome) with registry := s.registry.deregister sessionId }

/-- `transition_from_running`, in the run at `i`. -/
def transitionRun (s : Lifecycle) (i : ℕ) (sessionId : String) (outcome : Session) (stored : Bool) :
    Lifecycle :=
  { s.moveTo i .finished with
    rows := if stored then (s.rows.transitionFromRunning sessionId outcome).1 else s.rows }

/-- The next step of the run at `i`, `none` when it stands elsewhere. -/
def stepRun (s : Lifecycle) (i : ℕ) (run : SessionRun) : LifecycleStep → Option Lifecycle
  | .startFails _ => if run.phase = .starting then some (s.moveTo i .failed) else none
  | .register _ => if run.phase = .starting then some (s.registerRun i run.sessionId) else none
  | .agentEnds _ ok =>
    if run.phase = .agent then
      let reason := s.registry.cancellationCompletionReason run.sessionId
      some (s.moveTo i (.ended ok (reason.getD .interrupted)))
    else none
  | .decide _ =>
    match run.phase with
    | .ended ok reason => some (s.moveTo i (.decided (outcome (s.tokenCancelled run) ok reason)))
    | _ => none
  | .deregister _ =>
    match run.phase with
    | .decided outcome => some (s.deregisterRun i run.sessionId outcome)
    | _ => none
  | .transition _ stored =>
    match run.phase with
    | .hooks outcome => some (s.transitionRun i run.sessionId outcome stored)
    | _ => none
  | _ => none

/-- One step, `none` when it is not possible. A claim or a resume that updates no row ends there. -/
def step (s : Lifecycle) (l : LifecycleStep) : Option Lifecycle :=
  match l with
  | .create sessionId queued =>
    match s.rows sessionId with
    | some _ => none
    | none =>
      if queued then
        some { s with rows := Function.update s.rows sessionId (some ⟨.queued, none⟩) }
      else
        some (s.start (Function.update s.rows sessionId (some ⟨.running, none⟩)) sessionId false)
  | .claim sessionId =>
    match s.rows.transitionQueuedToRunning sessionId with
    | (rows, true) => some (s.start rows sessionId false)
    | (_, false) => some s
  | .resume sessionId =>
    match s.rows.transitionToRunning sessionId with
    | (rows, true) => some (s.start rows sessionId true)
    | (_, false) => some s
  | .startFails i | .register i | .agentEnds i _ | .decide i | .deregister i | .transition i _ =>
    match s.runs[i]? with
    | some run => s.stepRun i run l
    | none => none

/-- The terminal transition is one of the run's own session. -/
theorem transitionRun_rows_of_ne (s : Lifecycle) {i : ℕ} {id sessionId : String} (outcome : Session)
    (stored : Bool) (hne : id ≠ sessionId) :
    (s.transitionRun i sessionId outcome stored).rows id = s.rows id := by
  cases stored with
  | false => rfl
  | true => exact SessionTable.updateWhere_of_ne _ _ _ _ hne

/-! ### What a step does -/

/-- The effect of a step on the registry, the rows and the runs. -/
inductive Effect (s : Lifecycle) : LifecycleStep → Lifecycle → Prop where
  /-- A claim or a resume finds no row to update. -/
  | idle {l : LifecycleStep} (hl : ∀ j, l ≠ .register j) : Effect s l s
  | queue {id : String} (hrow : s.rows id = none) :
      Effect s (.create id true)
        { s with rows := Function.update s.rows id (some ⟨.queued, none⟩) }
  | start {l : LifecycleStep} {id : String} {resumed : Bool} (hl : ∀ j, l ≠ .register j)
      (hrow : ∀ row, s.rows id = some row → row.status ≠ .running)
      (hresume : l = .resume id ∨
        resumed = false ∧ ∀ row, s.rows id = some row → row.status.isTerminal = false) :
      Effect s l (s.start (Function.update s.rows id (some ⟨.running, none⟩)) id resumed)
  | startFails {i : ℕ} {run : SessionRun} (hrun : s.runs[i]? = some run)
      (hphase : run.phase = .starting) : Effect s (.startFails i) (s.moveTo i .failed)
  | register {i : ℕ} {run : SessionRun} (hrun : s.runs[i]? = some run)
      (hphase : run.phase = .starting) : Effect s (.register i) (s.registerRun i run.sessionId)
  /-- The agent's run ends, or the outcome is decided. -/
  | move {l : LifecycleStep} {i : ℕ} {run : SessionRun} {phase : SessionPhase}
      (hl : ∀ j, l ≠ .register j)
      (hrun : s.runs[i]? = some run) (hphase : run.phase.registered = true)
      (hnew : phase.registered = true ∧ phase ≠ .agent) : Effect s l (s.moveTo i phase)
  | deregister {i : ℕ} {run : SessionRun} {outcome : Session} (hrun : s.runs[i]? = some run)
      (hphase : run.phase = .decided outcome) :
      Effect s (.deregister i) (s.deregisterRun i run.sessionId outcome)
  | transition {i : ℕ} {run : SessionRun} {outcome : Session} {stored : Bool}
      (hrun : s.runs[i]? = some run) (hphase : run.phase = .hooks outcome) :
      Effect s (.transition i stored) (s.transitionRun i run.sessionId outcome stored)

variable {s t : Lifecycle} {l : LifecycleStep}

theorem effect_of_stepRun {i : ℕ} {run : SessionRun} (hrun : s.runs[i]? = some run)
    (hl : l.runIndex = some i) (h : s.stepRun i run l = some t) : Effect s l t := by
  cases l with
  | create | claim | resume => cases h
  | startFails j =>
    obtain rfl := Option.some.inj hl
    obtain ⟨hphase, ⟨⟩⟩ := Option.ite_none_right_eq_some.mp h
    exact .startFails hrun hphase
  | register j =>
    obtain rfl := Option.some.inj hl
    obtain ⟨hphase, ⟨⟩⟩ := Option.ite_none_right_eq_some.mp h
    exact .register hrun hphase
  | agentEnds j ok =>
    obtain ⟨hphase, ⟨⟩⟩ := Option.ite_none_right_eq_some.mp h
    exact .move nofun hrun (by rw [hphase]; rfl) ⟨rfl, SessionPhase.noConfusion⟩
  | decide j =>
    simp only [stepRun] at h
    split at h
    · rename_i hphase
      obtain rfl := Option.some.inj h
      exact .move nofun hrun (by rw [hphase]; rfl) ⟨rfl, SessionPhase.noConfusion⟩
    · cases h
  | deregister j =>
    obtain rfl := Option.some.inj hl
    simp only [stepRun] at h
    split at h
    · rename_i hphase
      obtain rfl := Option.some.inj h
      exact .deregister hrun hphase
    · cases h
  | transition j stored =>
    obtain rfl := Option.some.inj hl
    simp only [stepRun] at h
    split at h
    · rename_i hphase
      obtain rfl := Option.some.inj h
      exact .transition hrun hphase
    · cases h

theorem effect_of_step (h : s.step l = some t) : Effect s l t := by
  have hrun : ∀ {i : ℕ}, (match s.runs[i]? with
      | some run => s.stepRun i run l
      | none => none) = some t → ∃ run, s.runs[i]? = some run ∧ s.stepRun i run l = some t := by
    intro i hi
    split at hi
    · exact ⟨_, ‹_›, hi⟩
    · cases hi
  cases l with
  | create id queued =>
    simp only [step] at h
    split at h
    · cases h
    · rename_i hrow
      have hnone : ∀ row, s.rows id ≠ some row := by simp [hrow]
      split at h
      · rename_i hqueued
        obtain rfl := Option.some.inj h
        exact hqueued ▸ .queue hrow
      · obtain rfl := Option.some.inj h
        exact .start nofun (fun row h => absurd h (hnone row))
          (.inr ⟨rfl, fun row h => absurd h (hnone row)⟩)
  -- a conditional update either finds its row or does nothing
  | claim id =>
    rcases SessionTable.updateWhere_cases s.rows id (· = .queued) ⟨.running, none⟩ with ⟨heq, -⟩ | ⟨row, hrow, hqueued, heq⟩
    · simp only [step, SessionTable.transitionQueuedToRunning, heq] at h
      obtain rfl := Option.some.inj h
      exact .idle nofun
    · simp only [step, SessionTable.transitionQueuedToRunning, heq] at h
      obtain rfl := Option.some.inj h
      have hstatus : row.status = .queued := by simpa using hqueued
      refine .start nofun (fun row' h' => ?_) (.inr ⟨rfl, fun row' h' => ?_⟩)
      · rw [← Option.some.inj (hrow.symm.trans h'), hstatus]
        exact SessionStatus.noConfusion
      · rw [← Option.some.inj (hrow.symm.trans h'), hstatus]
        rfl
  | resume id =>
    rcases SessionTable.updateWhere_cases s.rows id (· ≠ .running) ⟨.running, none⟩ with ⟨heq, -⟩ | ⟨row, hrow, hstatus, heq⟩
    · simp only [step, SessionTable.transitionToRunning, heq] at h
      obtain rfl := Option.some.inj h
      exact .idle nofun
    · simp only [step, SessionTable.transitionToRunning, heq] at h
      obtain rfl := Option.some.inj h
      refine .start nofun (fun row' h' => ?_) (.inl rfl)
      rw [← Option.some.inj (hrow.symm.trans h')]
      simpa using hstatus
  | startFails | register | agentEnds | decide | deregister | transition =>
    obtain ⟨run, hi, h⟩ := hrun h
    exact effect_of_stepRun hi rfl h

/-- Only a registration touches the records and the deferred cancellations. -/
theorem Effect.records (he : Effect s l t) :
    (∃ i run, l = .register i ∧ s.runs[i]? = some run ∧ run.phase = .starting ∧
      t = s.registerRun i run.sessionId) ∨
    (∀ j, l ≠ .register j) ∧ t.registry.sessions = s.registry.sessions ∧
      t.registry.pendingCancellations = s.registry.pendingCancellations := by
  cases he with
  | register hrun hphase => exact .inl ⟨_, _, rfl, hrun, hphase, rfl⟩
  | idle hl | start hl | move hl => exact .inr ⟨hl, rfl, rfl⟩
  | queue | startFails | deregister | transition => exact .inr ⟨nofun, rfl, rfl⟩

end Lifecycle

end Builderbot.Staged
