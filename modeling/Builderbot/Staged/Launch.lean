import Builderbot.Lib.Fault
import Builderbot.Staged.SessionRuns

/-!
# Launch operations

The operations of `session_commands.rs` that launch a session, as programs whose store calls, lookups
and `session_runner::start_session` may each fail. An error ends the operation and leaves the store as
the calls before it have made it.

What a launch reads of the store is in `LaunchWorld`; which calls fail, and what the machine and the
other sessions of a branch contribute, is in `LaunchEnv`. The log `claimed` has the rows that the
operation has created or claimed.
-/

namespace Builderbot.Staged

open Lib

/-! ## The world -/

/-- `Branch` of `store/models.rs`, as far as a launch reads it. -/
structure Branch where
  projectId : String
  workspaceName : Option String
  /-- `branch_type` is `Remote`. -/
  isRemote : Bool
deriving DecidableEq, Repr

/-- The store and the registry. -/
structure LaunchWorld where
  sessions : SessionTable
  /-- The provider column of the session table. -/
  providers : String → Option String
  /-- The branch of the artifact that is linked to a session. -/
  artifactBranches : String → Option String
  branches : String → Option Branch
  projects : String → Bool
  /-- The branches with a worktree. -/
  workdirs : String → Bool
  /-- `find_fresh_auto_review`: the session of the review it finds. -/
  freshAutoReviews : String → Option (Option String)
  registry : SessionRegistry
  claimed : List String

/-- The calls that may fail. `again` tells a second call from the first. -/
inductive LaunchSite where
  | getStore
  | getSession
  | getProject
  | getBranch (again : Bool)
  | getArtifact
  | getWorkdir
  | resolveBranchRepo
  | clonePath
  | buildRemoteBranchContext
  | getHeadSha (again : Bool)
  | createSession
  /-- `create_note`, `create_commit`, `create_review` and `create_project_note`. -/
  | createArtifact
  | setImagesSessionId
  | transitionToRunning
  | transitionQueuedToRunning
  | markSessionArtifactStarted
  | prepareQueuedSession
  | updateReviewCommitSha
  | updateSessionPipeline
  | setSessionProvider
  | embedLaunchContext
  | extractLaunchContext
  | shouldQueue (again : Bool)
  | findFreshAutoReview
  | getReviewSession (again : Bool)
  | transitionFromActive
  /-- `AcpDriver::for_workspace` and `AcpDriver::new`. -/
  | createDriver
  | addSessionMessage
deriving DecidableEq, Repr

/-- What the world outside contributes to one launch. -/
structure LaunchEnv where
  /-- The error with which a call fails. -/
  failure : LaunchSite → Option String
  /-- The ids that are generated. -/
  newSessionId : String
  newArtifactId : String
  /-- What `should_queue_branch_session_start` finds in the branch at the first and second check. -/
  shouldQueue : Bool → Bool
  /-- `discover_providers`. -/
  discoverProviders : List String
  /-- `read_recent_agent_ids`. -/
  recentAgentIds : List String

/-- A launch keeps what it has done when it stops with an error. -/
abbrev Launch := EStateM String LaunchWorld

/-- What the operations return. -/
inductive LaunchResponse where
  | session (sessionId : String)
  | resumed
  | projectSession (sessionId noteId : String)
  | branchSession (sessionId artifactId : String) (status : SessionStatus)
  /-- Whether a queued session was started. -/
  | started (any : Bool)
deriving DecidableEq, Repr

/-- `SessionConfig`, as far as `start_session` can fail on it. -/
structure SessionConfig where
  sessionId : String
  provider : Option String
  workspaceName : Option String
deriving DecidableEq, Repr

/-- `PipelineKind`. -/
inductive PipelineKind where
  | rebase
  | squash
deriving DecidableEq, Repr

/-- The queued session that a drain starts. -/
structure QueuedSession where
  id : String
  provider : Option String
  pipelineKind : Option PipelineKind
deriving DecidableEq, Repr

/-- `BranchSessionSchedule`, without `blocks_queue`, which the drain reads. -/
structure BranchSessionSchedule where
  kind : BranchSessionScheduleKind
  reviewId : Option String
deriving DecidableEq, Repr

/-- `branch_session_type`. -/
def BranchSessionScheduleKind.branchSessionType :
    BranchSessionScheduleKind → Option BranchSessionType
  | commit => some .commit
  | note => some .note
  | review => some .review
  | commitPipeline => none

/-! ## Providers -/

/-- `REMOTE_PROVIDER_IDS`. -/
def remoteProviderIds : List String := ["goose", "claude"]

/-- `select_preferred_provider`. -/
def selectPreferredProvider (availableIds recentIds : List String) : Option String :=
  (recentIds.find? (· ∈ availableIds)).or availableIds.head?

/-- The error of a missing provider, which `start_session` has for a missing local agent too. -/
def noLocalAgent : String :=
  "No ACP agent found. Install Goose, Claude Code, Codex, Pi, or Amp and ensure it's on your PATH."

/-- `missing_review_provider_error`. -/
def missingReviewProviderError (isRemote : Bool) : String :=
  if isRemote then "No remote ACP provider is configured for review sessions." else noLocalAgent

/-- `resolve_provider_from_ids`. -/
def resolveProviderFromIds (provider : Option String) (availableIds recentIds : List String)
    (isRemote : Bool) : Except String String :=
  if availableIds = [] then .error (missingReviewProviderError isRemote)
  else match provider with
    | some provider =>
      if provider ∈ availableIds then .ok provider
      else .error ("Selected agent provider `" ++ provider ++ "` is not available for "
        ++ (if isRemote then "remote" else "local") ++ " review sessions.")
    | none =>
      match selectPreferredProvider availableIds recentIds with
      | some provider => .ok provider
      | none => .error (missingReviewProviderError isRemote)

namespace LaunchEnv

variable (env : LaunchEnv)

/-- A call, with what it makes of the error. -/
def call (site : LaunchSite) (describe : String → String := fun e => e) : Launch Unit :=
  attempt ((env.failure site).map describe)

/-- A read whose error is taken for a missing value (`.ok().flatten()`). -/
def readOrNone {α : Type} (site : LaunchSite) (value : Option α) : Option α :=
  if env.failure site = none then value else none

/-- `ok_or_else`. -/
def orThrow {α : Type} (e : String) : Option α → Launch α
  | some a => pure a
  | none => throw e

/-- `resolve_review_provider`. -/
def resolveReviewProvider (provider : Option String) (isRemote : Bool) : Except String String :=
  resolveProviderFromIds provider (if isRemote then remoteProviderIds else env.discoverProviders)
    env.recentAgentIds isRemote

/-! ## The store and the runner -/

/-- `create_session`. -/
def createSession (status : SessionStatus) : Launch Unit := do
  env.call .createSession
  let w ← get
  match w.sessions env.newSessionId with
  | some _ => throw "UNIQUE constraint failed: sessions.id"
  | none => modify fun w =>
    { w with
      sessions := Function.update w.sessions env.newSessionId (some ⟨status, none⟩)
      claimed := w.claimed ++ [env.newSessionId] }

/-- A row is set to running, if the update applies to it, and whether it does. -/
def claim (sessionId : String) (transition : SessionTable → SessionTable × Bool) : Launch Bool := do
  let w ← get
  match transition w.sessions with
  | (sessions, true) => do
      modify fun w => { w with sessions, claimed := w.claimed ++ [sessionId] }
      pure true
  | (_, false) => pure false

/-- `register`. -/
def register (sessionId : String) : Launch Unit :=
  modify fun w => { w with registry := (w.registry.register sessionId).1 }

/-- The driver of `session_runner::start_session`. A failure to store the provider it resolves is
logged only. -/
def createDriver (config : SessionConfig) : Launch Unit :=
  if config.workspaceName = none ∧ config.provider = none ∧ env.discoverProviders = [] then
    throw noLocalAgent
  else env.call .createDriver

/-- `session_runner::start_session`, up to the start of the thread. -/
def runnerStartSession (config : SessionConfig) : Launch Unit := do
  env.createDriver config
  env.call .addSessionMessage ("Failed to persist user message: " ++ ·)
  register config.sessionId

/-! ## The operations -/

/-- `start_session`. -/
def startSession (provider : Option String) : Launch LaunchResponse := do
  env.call .getStore
  env.createSession .running
  env.runnerStartSession ⟨env.newSessionId, provider, none⟩
  pure (.session env.newSessionId)

/-- The branch that `resume_session` finds for a session: the one it is given, else that of the
session's artifact. -/
def linkedBranch (w : LaunchWorld) (sessionId : String) (branchId : Option String) : Option Branch :=
  (branchId.bind fun id => env.readOrNone (.getBranch false) (w.branches id)).or
    ((env.readOrNone .getArtifact (w.artifactBranches sessionId)).bind fun id =>
      env.readOrNone (.getBranch true) (w.branches id))

/-- `resume_session`. -/
def resumeSession (sessionId : String) (branchId : Option String) : Launch LaunchResponse := do
  env.call .getStore
  env.call .getSession
  let w ← get
  let _ ← orThrow ("Session not found: " ++ sessionId) (w.sessions sessionId)
  env.call .transitionToRunning
  let transitioned ← claim sessionId (·.transitionToRunning sessionId)
  if transitioned then do
    let branch := env.linkedBranch w sessionId branchId
    env.runnerStartSession ⟨sessionId, w.providers sessionId, branch.bind (·.workspaceName)⟩
    pure .resumed
  else throw "Session is already running"

/-- `start_project_session`. -/
def startProjectSession (projectId : String) (provider : Option String) : Launch LaunchResponse := do
  env.call .getStore
  env.call .getProject
  let w ← get
  if w.projects projectId then do
    env.createSession .running
    env.call .createArtifact
    env.runnerStartSession ⟨env.newSessionId, provider, none⟩
    pure (.projectSession env.newSessionId env.newArtifactId)
  else throw ("Project not found: " ++ projectId)

/-- `registry.cancel`. -/
def cancel (sessionId : String) : Launch Unit :=
  modify fun w =>
    match w.registry.running.lookup sessionId with
    | some ref => { w with registry := w.registry.applyCancellation ref .interrupted }
    | none => w

/-- `cancel_in_flight_auto_review_for_branch`. -/
def cancelInFlightAutoReviewForBranch (branchId : String) : Launch Bool := do
  env.call .findFreshAutoReview
  let w ← get
  match w.freshAutoReviews branchId with
  | none | some none => pure false
  | some (some sessionId) => do
      env.call (.getReviewSession false)
      match w.sessions sessionId with
      | none => pure false
      | some session =>
        if session.status = .running ∨ session.status = .queued then do
          cancel sessionId
          env.call .transitionFromActive
          match w.sessions.transitionFromActive sessionId ⟨.cancelled, some .interrupted⟩ with
          | (sessions, true) => do
              modify fun w => { w with sessions }
              pure true
          | (_, false) => do
              env.call (.getReviewSession true)
              pure (session.status = .cancelled)
        else pure false

/-- `get_branch` and `get_project`. -/
def branchAndProject (branchId : String) (again : Bool) : Launch Branch := do
  env.call (.getBranch again)
  let w ← get
  let branch ← orThrow ("Branch not found: " ++ branchId) (w.branches branchId)
  env.call .getProject
  if w.projects branch.projectId then pure branch
  else throw ("Project not found: " ++ branch.projectId)

/-- The working directory and the context of a branch. -/
def branchContext (branchId : String) (isRemote : Bool) : Launch Unit := do
  if isRemote then env.call .buildRemoteBranchContext ("Failed to build remote branch context: " ++ ·)
  else do
    env.call .getWorkdir
    let w ← get
    if w.workdirs branchId then pure () else throw ("No worktree for branch: " ++ branchId)

/-- `get_head_sha` of a local branch. A remote HEAD that cannot be read is replaced. -/
def headSha (isRemote again : Bool) : Launch Unit :=
  if isRemote then pure () else env.call (.getHeadSha again) ("Failed to get HEAD SHA: " ++ ·)

/-- The HEAD of a session that needs it. -/
def headShaIf (needed isRemote again : Bool) : Launch Unit :=
  if needed then env.headSha isRemote again else pure ()

/-- `resolve_branch_session_provider`. -/
def resolveBranchSessionProvider (branchId : String) (type : BranchSessionType)
    (provider : Option String) : Launch (Option String) := do
  env.call (.getBranch false)
  let w ← get
  let branch ← orThrow ("Branch not found: " ++ branchId) (w.branches branchId)
  if type = .review then
    match env.resolveReviewProvider provider branch.workspaceName.isSome with
    | .ok provider => pure (some provider)
    | .error e => throw e
  else pure provider

/-- `should_queue_branch_session_start`. -/
def shouldQueueBranchSessionStart (again : Bool) : Launch Bool := do
  env.call (.shouldQueue again)
  pure (env.shouldQueue again)

/-- `insert_queued_branch_session`. -/
def insertQueuedBranchSession : Launch LaunchResponse := do
  env.call .embedLaunchContext
  env.createSession .queued
  env.call .setImagesSessionId
  env.call .createArtifact
  pure (.branchSession env.newSessionId env.newArtifactId .queued)

/-- `prepare_branch_session_start`. -/
def prepareBranchSessionStart (branchId : String) (type : BranchSessionType) : Launch Branch := do
  let branch ← env.branchAndProject branchId true
  env.branchContext branchId branch.workspaceName.isSome
  env.headShaIf (type ≠ .note) branch.workspaceName.isSome false
  pure branch

/-- `insert_running_branch_session` and `launch_running_branch_session`. -/
def launchRunningBranchSession (branch : Branch) (provider : Option String) :
    Launch LaunchResponse := do
  env.createSession .running
  env.call .createArtifact
  env.runnerStartSession ⟨env.newSessionId, provider, branch.workspaceName⟩
  pure (.branchSession env.newSessionId env.newArtifactId .running)

/-- `start_or_queue_branch_session_for_store`, after the automatic review is out of the way. -/
def startOrQueue (branchId : String) (type : BranchSessionType) (provider : Option String) :
    Launch LaunchResponse := do
  let provider ← env.resolveBranchSessionProvider branchId type provider
  let queue ← env.shouldQueueBranchSessionStart false
  if queue then env.insertQueuedBranchSession
  else do
    let prepared ← env.prepareBranchSessionStart branchId type
    let queue ← env.shouldQueueBranchSessionStart true
    if queue then env.insertQueuedBranchSession
    else env.launchRunningBranchSession prepared provider

/-- `start_or_queue_branch_session_for_store`. -/
def startOrQueueBranchSessionForStore (branchId : String) (type : BranchSessionType)
    (provider : Option String) : Launch LaunchResponse :=
  if type = .note then env.startOrQueue branchId type provider
  else do
    let _ ← env.cancelInFlightAutoReviewForBranch branchId
    env.startOrQueue branchId type provider

/-- `resolve_branch_pipeline_context`. -/
def resolveBranchPipelineContext (branchId : String) : Launch Unit := do
  let branch ← env.branchAndProject branchId false
  env.call .resolveBranchRepo
  if branch.isRemote then env.call .clonePath
  else do
    env.call .getWorkdir
    let w ← get
    if w.workdirs branchId then pure () else throw ("No worktree for branch: " ++ branchId)

/-- `start_queued_commit_pipeline_for_branch` once the row is claimed. `start_pipeline_session`
registers first and does not fail. -/
def startClaimedPipeline (session : QueuedSession) : Launch LaunchResponse := do
  env.call .markSessionArtifactStarted
  env.call .prepareQueuedSession
  env.call .updateSessionPipeline
  register session.id
  pure (.started true)

/-- `start_queued_commit_pipeline_for_branch`. -/
def startQueuedCommitPipelineForBranch (branchId : String) (session : QueuedSession) :
    Launch LaunchResponse := do
  let _ ← orThrow ("Queued session " ++ session.id ++ " has no pipeline kind") session.pipelineKind
  env.resolveBranchPipelineContext branchId
  env.call .transitionQueuedToRunning
  let transitioned ← claim session.id (·.transitionQueuedToRunning session.id)
  if transitioned then env.startClaimedPipeline session else pure (.started false)

/-- A review stores a provider that its session does not have. -/
def storeProvider (session : QueuedSession) (resolved : String) : Launch Unit :=
  if session.provider = some resolved then pure () else env.call .setSessionProvider

/-- The provider of a queued session. -/
def effectiveProvider (type : BranchSessionType) (session : QueuedSession) (provider : Option String)
    (isRemote : Bool) : Launch (Option String) :=
  if type = .review then
    match env.resolveReviewProvider (session.provider.or provider) isRemote with
    | .error e => throw e
    | .ok resolved => do
        env.storeProvider session resolved
        pure (some resolved)
  else pure (session.provider.or provider)

/-- The commit of a review is set to the HEAD. -/
def updateReview (reviewId : Option String) (isRemote : Bool) : Launch Unit :=
  if reviewId.isSome then do
    env.headSha isRemote false
    env.call .updateReviewCommitSha
  else pure ()

/-- `start_queued_session_for_branch` once the row is claimed. -/
def startClaimedSession (type : BranchSessionType) (reviewId : Option String) (branch : Branch)
    (session : QueuedSession) (provider : Option String) : Launch LaunchResponse := do
  env.call .markSessionArtifactStarted
  env.call .prepareQueuedSession
  env.updateReview reviewId branch.workspaceName.isSome
  env.headShaIf (type = .commit) branch.workspaceName.isSome true
  env.runnerStartSession ⟨session.id, provider, branch.workspaceName⟩
  pure (.started true)

/-- `start_queued_session_for_branch`. -/
def startQueuedSessionForBranch (branchId : String) (session : QueuedSession)
    (schedule : BranchSessionSchedule) (provider : Option String) : Launch LaunchResponse :=
  if schedule.kind = .commitPipeline then env.startQueuedCommitPipelineForBranch branchId session
  else do
    let type ← orThrow ("Queued session " ++ session.id ++ " cannot start as an agent session")
      schedule.kind.branchSessionType
    env.call .extractLaunchContext
    let branch ← env.branchAndProject branchId false
    let provider ← env.effectiveProvider type session provider branch.workspaceName.isSome
    env.branchContext branchId branch.workspaceName.isSome
    env.call .transitionQueuedToRunning
    let transitioned ← claim session.id (·.transitionQueuedToRunning session.id)
    if transitioned then env.startClaimedSession type schedule.reviewId branch session provider
    else pure (.started false)

/-- `trigger_auto_review`. -/
def triggerAutoReview (branchId : String) (provider : Option String) : Launch LaunchResponse := do
  let branch ← env.branchAndProject branchId false
  match env.resolveReviewProvider provider branch.workspaceName.isSome with
  | .error e => throw e
  | .ok provider => do
      env.branchContext branchId branch.workspaceName.isSome
      env.headSha branch.workspaceName.isSome false
      env.launchRunningBranchSession branch (some provider)

end LaunchEnv

/-- The launch operations with their arguments. -/
inductive LaunchOp where
  | startSession (provider : Option String)
  | resumeSession (sessionId : String) (branchId : Option String)
  | startProjectSession (projectId : String) (provider : Option String)
  | startOrQueueBranchSession (branchId : String) (type : BranchSessionType)
      (provider : Option String)
  | startQueuedSession (branchId : String) (session : QueuedSession)
      (schedule : BranchSessionSchedule) (provider : Option String)
  | triggerAutoReview (branchId : String) (provider : Option String)
deriving DecidableEq, Repr

namespace LaunchOp

/-- The program of an operation. -/
def program (env : LaunchEnv) : LaunchOp → Launch LaunchResponse
  | startSession provider => env.startSession provider
  | resumeSession sessionId branchId => env.resumeSession sessionId branchId
  | startProjectSession projectId provider => env.startProjectSession projectId provider
  | startOrQueueBranchSession branchId type provider =>
    env.startOrQueueBranchSessionForStore branchId type provider
  | startQueuedSession branchId session schedule provider =>
    env.startQueuedSessionForBranch branchId session schedule provider
  | triggerAutoReview branchId provider => env.triggerAutoReview branchId provider

/-- An operation has not created or claimed anything when it begins. -/
def run (op : LaunchOp) (env : LaunchEnv) (w : LaunchWorld) :
    EStateM.Result String LaunchWorld LaunchResponse :=
  op.program env { w with claimed := [] }

end LaunchOp

/-- No row that the operation has created or claimed is running without an entry in the registry. -/
def LaunchWorld.NoGhost (w : LaunchWorld) : Prop :=
  ∀ id ∈ w.claimed, (w.sessions id).map (·.status) = some .running →
    w.registry.running.lookup id ≠ none

/-- An operation that returns an error leaves no ghost. -/
def GhostFree : EStateM.Result String LaunchWorld LaunchResponse → Prop
  | .ok _ _ => True
  | .error _ w => w.NoGhost

end Builderbot.Staged
