import Builderbot.Staged.Launch

/-!
# Launches that fail

An operation inserts or claims a row as running before it is done, and an error after that leaves the
row as it is: no operation has the compensation that `finish_failed_pipeline_handoff_start` gives the
handoff of a pipeline. The row is then running without an agent, and nothing in its branch starts.

The statement about an operation is taken through its program from call to call: before the row is
claimed each call is a hypothesis of what follows, and after it each call is part of the condition.
-/

namespace Builderbot.Staged

open Lib

/-! ## The condition -/

namespace LaunchEnv

variable (env : LaunchEnv) (w : LaunchWorld)

/-- The call does not fail. -/
def Succeeds (site : LaunchSite) : Prop := env.failure site = none

/-- `create_session` inserts a row. -/
def Creates : Prop := env.Succeeds .createSession ∧ w.sessions env.newSessionId = none

/-- `session_runner::start_session` gets to register the session. -/
def RunnerStarts (config : SessionConfig) : Prop :=
  ¬(config.workspaceName = none ∧ config.provider = none ∧ env.discoverProviders = []) ∧
    env.Succeeds .createDriver ∧ env.Succeeds .addSessionMessage

/-- `get_branch` finds this branch and `get_project` its project. -/
def FindsBranch (branchId : String) (again : Bool) (branch : Branch) : Prop :=
  env.Succeeds (.getBranch again) ∧ w.branches branchId = some branch ∧ env.Succeeds .getProject ∧
    w.projects branch.projectId = true

/-- A local branch has a worktree. -/
def FindsWorkdir (branchId : String) : Prop := env.Succeeds .getWorkdir ∧ w.workdirs branchId = true

/-- The context of a branch can be built. -/
def BuildsContext (branchId : String) (isRemote : Bool) : Prop :=
  if isRemote then env.Succeeds .buildRemoteBranchContext else env.FindsWorkdir w branchId

/-- The HEAD of a local branch can be read. -/
def ReadsHead (isRemote again : Bool) : Prop := isRemote = true ∨ env.Succeeds (.getHeadSha again)

/-- The automatic review of the branch can be looked up and cancelled. -/
def CancelsAutoReview (branchId : String) : Prop :=
  env.Succeeds .findFreshAutoReview ∧ ∀ sessionId, w.freshAutoReviews branchId = some (some sessionId) →
    env.Succeeds (.getReviewSession false) ∧ ∀ session, w.sessions sessionId = some session →
      (session.status = .running ∨ session.status = .queued) → env.Succeeds .transitionFromActive

/-- `resolve_branch_session_provider` gives this provider. -/
def ResolvesProvider (branchId : String) (type : BranchSessionType)
    (provider resolved : Option String) : Prop :=
  env.Succeeds (.getBranch false) ∧ ∃ branch, w.branches branchId = some branch ∧
    if type = .review then
      ∃ p, env.resolveReviewProvider provider branch.workspaceName.isSome = .ok p ∧ resolved = some p
    else resolved = provider

/-- The provider of a queued session is this one, and a review can store it. -/
def EffectiveProvider (type : BranchSessionType) (session : QueuedSession)
    (provider : Option String) (isRemote : Bool) (resolved : Option String) : Prop :=
  if type = .review then
    ∃ p, env.resolveReviewProvider (session.provider.or provider) isRemote = .ok p ∧
      (session.provider = some p ∨ env.Succeeds .setSessionProvider) ∧ resolved = some p
  else resolved = session.provider.or provider

/-- The second check lets a branch session start, which is then inserted. -/
def InsertsRunning (branchId : String) (type : BranchSessionType) (branch : Branch) : Prop :=
  (env.Succeeds (.shouldQueue false) ∧ env.shouldQueue false = false) ∧
    env.FindsBranch w branchId true branch ∧ env.BuildsContext w branchId branch.workspaceName.isSome ∧
    (type ≠ .note → env.ReadsHead branch.workspaceName.isSome false) ∧
    (env.Succeeds (.shouldQueue true) ∧ env.shouldQueue true = false) ∧ env.Creates w

/-- The calls of a drain after the claim of a session. -/
def StartsClaimed (type : BranchSessionType) (reviewId : Option String) (branch : Branch)
    (config : SessionConfig) : Prop :=
  env.Succeeds .markSessionArtifactStarted ∧ env.Succeeds .prepareQueuedSession ∧
    (reviewId.isSome = true → env.ReadsHead branch.workspaceName.isSome false ∧
      env.Succeeds .updateReviewCommitSha) ∧
    (type = .commit → env.ReadsHead branch.workspaceName.isSome true) ∧ env.RunnerStarts config

/-- The session is in the registry. -/
def Registered (sessionId : String) : Prop := w.registry.running.lookup sessionId ≠ none

/-- The row is there and this update applies to it. -/
def Claims (sessionId : String) (p : SessionStatus → Bool) : Prop :=
  ∃ row, w.sessions sessionId = some row ∧ p row.status = true

end LaunchEnv

/-- If the operation gets to insert or claim a row as running, every call that it makes after that
succeeds, unless the session is in the registry already. -/
def LaunchOp.LaterCallsSucceed (env : LaunchEnv) (w : LaunchWorld) : LaunchOp → Prop
  | .startSession provider =>
    env.Succeeds .getStore → env.Creates w →
      LaunchEnv.Registered w env.newSessionId ∨ env.RunnerStarts ⟨env.newSessionId, provider, none⟩
  | .resumeSession id branchId =>
    env.Succeeds .getStore → env.Succeeds .getSession → env.Succeeds .transitionToRunning →
      LaunchEnv.Claims w id (· ≠ .running) →
      LaunchEnv.Registered w id ∨ env.RunnerStarts
        ⟨id, w.providers id, (env.linkedBranch w id branchId).bind (·.workspaceName)⟩
  | .startProjectSession projectId provider =>
    env.Succeeds .getStore → env.Succeeds .getProject → w.projects projectId = true →
      env.Creates w →
      LaunchEnv.Registered w env.newSessionId ∨
        env.Succeeds .createArtifact ∧ env.RunnerStarts ⟨env.newSessionId, provider, none⟩
  | .startOrQueueBranchSession branchId type provider =>
    (type = .note ∨ env.CancelsAutoReview w branchId) →
      ∀ resolved, env.ResolvesProvider w branchId type provider resolved →
      ∀ branch, env.InsertsRunning w branchId type branch →
      LaunchEnv.Registered w env.newSessionId ∨ env.Succeeds .createArtifact ∧
        env.RunnerStarts ⟨env.newSessionId, resolved, branch.workspaceName⟩
  | .startQueuedSession branchId session schedule provider =>
    match schedule.kind.branchSessionType with
    | none =>
      session.pipelineKind ≠ none → ∀ branch, env.FindsBranch w branchId false branch →
        env.Succeeds .resolveBranchRepo →
        (if branch.isRemote then env.Succeeds .clonePath else env.FindsWorkdir w branchId) →
        env.Succeeds .transitionQueuedToRunning → LaunchEnv.Claims w session.id (· = .queued) →
        LaunchEnv.Registered w session.id ∨ env.Succeeds .markSessionArtifactStarted ∧
          env.Succeeds .prepareQueuedSession ∧ env.Succeeds .updateSessionPipeline
    | some type =>
      env.Succeeds .extractLaunchContext → ∀ branch, env.FindsBranch w branchId false branch →
        ∀ resolved, env.EffectiveProvider type session provider branch.workspaceName.isSome
          resolved →
        env.BuildsContext w branchId branch.workspaceName.isSome →
        env.Succeeds .transitionQueuedToRunning → LaunchEnv.Claims w session.id (· = .queued) →
        LaunchEnv.Registered w session.id ∨ env.StartsClaimed type schedule.reviewId branch
          ⟨session.id, resolved, branch.workspaceName⟩
  | .triggerAutoReview branchId provider =>
    ∀ branch, env.FindsBranch w branchId false branch →
      ∀ resolved, env.resolveReviewProvider provider branch.workspaceName.isSome = .ok resolved →
      env.BuildsContext w branchId branch.workspaceName.isSome →
      env.ReadsHead branch.workspaceName.isSome false → env.Creates w →
      LaunchEnv.Registered w env.newSessionId ∨ env.Succeeds .createArtifact ∧
        env.RunnerStarts ⟨env.newSessionId, some resolved, branch.workspaceName⟩

/-! ## The calls -/

variable {f : Unit → Launch β} {Q : Prop} {isRemote : Bool}

namespace LaunchEnv

variable {env : LaunchEnv} {w : LaunchWorld} {β : Type}

/-- With nothing claimed there is no ghost. -/
theorem noGhost_of_claimed (h : w.claimed = []) : w.NoGhost := by
  intro id hid
  rw [h] at hid
  cases hid

/-- Before a row is claimed a call may fail. -/
theorem call_bind (hw : w.NoGhost) (site : LaunchSite) (describe : String → String)
    (f : Unit → Launch β) :
    ErrorsIn LaunchWorld.NoGhost (env.call site describe >>= f) w ↔
      (env.Succeeds site → ErrorsIn LaunchWorld.NoGhost (f ()) w) := by
  unfold call
  rw [errorsIn_attempt_bind_of hw, Option.map_eq_none_iff]
  exact Iff.rfl

/-- After a row is claimed a call must succeed, unless the session is registered. -/
theorem call_bind_later {site : LaunchSite} {describe : String → String}
    (h : ErrorsIn LaunchWorld.NoGhost (f ()) w ↔ w.NoGhost ∨ Q) :
    ErrorsIn LaunchWorld.NoGhost (env.call site describe >>= f) w ↔
      w.NoGhost ∨ env.Succeeds site ∧ Q := by
  unfold call
  rw [errorsIn_attempt_bind_or h, Option.map_eq_none_iff]
  exact Iff.rfl

/-- An error without a claim is harmless, so only the value matters. -/
theorem orThrow_bind (hw : w.NoGhost) {α : Type} (e : String) (o : Option α) (f : α → Launch β) :
    ErrorsIn LaunchWorld.NoGhost (orThrow e o >>= f) w ↔
      ∀ a, o = some a → ErrorsIn LaunchWorld.NoGhost (f a) w := by
  cases o with
  | none => exact ⟨fun _ => nofun, fun _ => hw⟩
  | some a => exact ⟨fun h a' ha => Option.some.inj ha ▸ h, fun h => h a rfl⟩

/-- The runner fails before it registers, or not at all. -/
theorem runnerStartSession_bind (config : SessionConfig) (r : β) :
    ErrorsIn LaunchWorld.NoGhost (env.runnerStartSession config >>= fun _ => pure r) w ↔
      w.NoGhost ∨ env.RunnerStarts config := by
  have hregister : ErrorsIn LaunchWorld.NoGhost (register config.sessionId >>= fun _ => pure r) w ↔
      w.NoGhost ∨ True := ⟨fun _ => .inr trivial, fun _ => trivial⟩
  unfold runnerStartSession RunnerStarts createDriver
  simp only [bind_assoc]
  split
  · rename_i hnone
    rw [errorsIn_throw_bind]
    tauto
  · rename_i hsome
    rw [call_bind_later (call_bind_later hregister)]
    tauto

/-- The world after a row was created or claimed with this status. -/
def claimed (w : LaunchWorld) (id : String) (status : SessionStatus) : LaunchWorld :=
  { w with
    sessions := Function.update w.sessions id (some ⟨status, none⟩)
    claimed := w.claimed ++ [id] }

/-- A row claimed as running is no ghost exactly if its run is registered. -/
theorem noGhost_claimed (h : w.claimed = []) (id : String) :
    (claimed w id .running).NoGhost ↔ Registered w id := by
  constructor
  · intro hghost
    refine hghost id (by simp [claimed]) ?_
    show Option.map _ (Function.update w.sessions id _ id) = _
    rw [Function.update_self]
    rfl
  · intro hreg id' hid' _
    have hid' : id' = id := by simpa [claimed, h] using hid'
    exact hid' ▸ hreg

/-- A queued row is no ghost. -/
theorem noGhost_claimed_queued (h : w.claimed = []) (id : String) : (claimed w id .queued).NoGhost := by
  intro id' hid' hrunning
  have hid' : id' = id := by simpa [claimed, h] using hid'
  subst hid'
  have hrow : (claimed w id' .queued).sessions id' = some ⟨.queued, none⟩ := Function.update_self ..
  rw [hrow] at hrunning
  cases hrunning

/-- After the row is created, what follows must not fail. -/
theorem createSession_bind (hw : w.NoGhost) (status : SessionStatus) (f : Unit → Launch β) :
    ErrorsIn LaunchWorld.NoGhost (env.createSession status >>= f) w ↔
      (env.Creates w → ErrorsIn LaunchWorld.NoGhost (f ()) (claimed w env.newSessionId status)) := by
  unfold createSession Creates
  simp only [bind_assoc]
  rw [call_bind hw, and_imp]
  refine imp_congr_right fun _ => ?_
  rw [errorsIn_get_bind]
  cases hrow : w.sessions env.newSessionId with
  | some row => exact ⟨fun _ => nofun, fun _ => hw⟩
  | none => exact ⟨fun h _ => h, fun h => h rfl⟩

/-- A row is claimed as running. -/
theorem claim_bind (h : w.claimed = []) (id : String) (p : SessionStatus → Bool) (f : Bool → Launch β)
    (hclaimed : ∀ u : LaunchWorld, (u.NoGhost ↔ Registered w id) →
      (ErrorsIn LaunchWorld.NoGhost (f true) u ↔ u.NoGhost ∨ Q))
    (hfree : ErrorsIn LaunchWorld.NoGhost (f false) w) :
    ErrorsIn LaunchWorld.NoGhost
        (claim id (fun rows => rows.updateWhere id p ⟨.running, none⟩) >>= f) w ↔
      (Claims w id p → Registered w id ∨ Q) := by
  unfold claim Claims
  rw [errorsIn_bind_assoc, errorsIn_get_bind]
  beta_reduce
  rcases w.sessions.updateWhere_cases id p ⟨.running, none⟩ with ⟨heq, hno⟩ | ⟨row, hrow, hp, heq⟩
  · rw [heq]
    refine ⟨fun _ ⟨row, hrow, hp⟩ => ?_, fun _ => hfree⟩
    rw [hno row hrow] at hp
    cases hp
  · rw [heq]
    have hghost := noGhost_claimed h id
    refine (hclaimed _ hghost).trans ?_
    rw [hghost]
    exact ⟨fun h _ => h, fun h => h ⟨row, hrow, hp⟩⟩

/-! ## The operations, call by call -/

theorem startSession_iff (h : w.claimed = []) (provider : Option String) :
    ErrorsIn LaunchWorld.NoGhost (env.startSession provider) w ↔
      (LaunchOp.startSession provider).LaterCallsSucceed env w := by
  have hw := noGhost_of_claimed h
  unfold startSession
  rw [call_bind hw]
  refine imp_congr_right fun _ => ?_
  rw [createSession_bind hw]
  refine imp_congr_right fun _ => ?_
  rw [runnerStartSession_bind, noGhost_claimed h]

theorem resumeSession_iff (h : w.claimed = []) (id : String) (branchId : Option String) :
    ErrorsIn LaunchWorld.NoGhost (env.resumeSession id branchId) w ↔
      (LaunchOp.resumeSession id branchId).LaterCallsSucceed env w := by
  have hw := noGhost_of_claimed h
  unfold resumeSession
  rw [call_bind hw]
  refine imp_congr_right fun _ => ?_
  rw [call_bind hw]
  refine imp_congr_right fun _ => ?_
  rw [errorsIn_get_bind, orThrow_bind hw]
  have hclaim := claim_bind h id (· ≠ .running) (fun transitioned =>
    if transitioned then do
      let branch := env.linkedBranch w id branchId
      env.runnerStartSession ⟨id, w.providers id, branch.bind (·.workspaceName)⟩
      pure LaunchResponse.resumed
    else throw "Session is already running")
    (fun u _ => runnerStartSession_bind _ _) hw
  constructor
  · rintro hrow ht ⟨row, hget, hstatus⟩
    exact hclaim.mp ((call_bind hw ..).mp (hrow row hget) ht) ⟨row, hget, hstatus⟩
  · intro hstart row _
    rw [call_bind hw]
    exact fun ht => hclaim.mpr (hstart ht)

/-- A running row is inserted, its artifact is created and the agent is started. -/
theorem createSession_createArtifact_bind (h : w.claimed = []) (config : SessionConfig)
    (r : LaunchResponse) :
    ErrorsIn LaunchWorld.NoGhost (do
        env.createSession .running
        env.call .createArtifact
        env.runnerStartSession config
        pure r) w ↔
      (env.Creates w → Registered w env.newSessionId ∨
        env.Succeeds .createArtifact ∧ env.RunnerStarts config) := by
  rw [createSession_bind (noGhost_of_claimed h)]
  refine imp_congr_right fun _ => ?_
  rw [call_bind_later (runnerStartSession_bind _ _), noGhost_claimed h]

theorem startProjectSession_iff (h : w.claimed = []) (projectId : String) (provider : Option String) :
    ErrorsIn LaunchWorld.NoGhost (env.startProjectSession projectId provider) w ↔
      (LaunchOp.startProjectSession projectId provider).LaterCallsSucceed env w := by
  have hw := noGhost_of_claimed h
  unfold startProjectSession
  rw [call_bind hw]
  refine imp_congr_right fun _ => ?_
  rw [call_bind hw]
  refine imp_congr_right fun _ => ?_
  rw [errorsIn_get_bind]
  split
  · rename_i hproject
    rw [createSession_createArtifact_bind h]
    exact ⟨fun hstart _ => hstart, fun hstart => hstart hproject⟩
  · rename_i hproject
    exact ⟨fun _ hexists => absurd hexists hproject, fun _ => hw⟩

/-- Both lookups come before the claim. -/
theorem branchAndProject_bind (hw : w.NoGhost) (branchId : String) (again : Bool)
    (f : Branch → Launch β) :
    ErrorsIn LaunchWorld.NoGhost (env.branchAndProject branchId again >>= f) w ↔
      ∀ branch, env.FindsBranch w branchId again branch →
        ErrorsIn LaunchWorld.NoGhost (f branch) w := by
  unfold branchAndProject FindsBranch
  simp only [bind_assoc]
  rw [call_bind hw, errorsIn_get_bind, orThrow_bind hw]
  have hproject : ∀ branch : Branch,
      ErrorsIn LaunchWorld.NoGhost (env.call .getProject >>= fun _ =>
        (if w.projects branch.projectId = true then pure branch
          else throw ("Project not found: " ++ branch.projectId)) >>= f) w ↔
      (env.Succeeds .getProject → w.projects branch.projectId = true →
        ErrorsIn LaunchWorld.NoGhost (f branch) w) := by
    intro branch
    rw [call_bind hw, errorsIn_ite_throw_bind hw]
  simp only [hproject]
  constructor
  · rintro hf branch ⟨hbranch, hget, hproject, hexists⟩
    exact hf hbranch branch hget hproject hexists
  · intro hf hbranch branch hget hproject hexists
    exact hf branch ⟨hbranch, hget, hproject, hexists⟩

theorem findsWorkdir_bind (hw : w.NoGhost) (branchId : String) (f : Unit → Launch β) :
    ErrorsIn LaunchWorld.NoGhost (env.call .getWorkdir >>= fun _ => get >>= fun w =>
        (if w.workdirs branchId = true then pure ()
          else throw ("No worktree for branch: " ++ branchId)) >>= f) w ↔
      (env.FindsWorkdir w branchId → ErrorsIn LaunchWorld.NoGhost (f ()) w) := by
  unfold FindsWorkdir
  rw [call_bind hw, and_imp]
  refine imp_congr_right fun _ => ?_
  rw [errorsIn_get_bind, errorsIn_ite_throw_bind hw]

/-- The context is built before the claim. -/
theorem branchContext_bind (hw : w.NoGhost) (branchId : String) (isRemote : Bool)
    (f : Unit → Launch β) :
    ErrorsIn LaunchWorld.NoGhost (env.branchContext branchId isRemote >>= f) w ↔
      (env.BuildsContext w branchId isRemote → ErrorsIn LaunchWorld.NoGhost (f ()) w) := by
  unfold branchContext BuildsContext
  cases isRemote with
  | true => exact call_bind hw ..
  | false =>
    simp only [Bool.false_eq_true, if_false, bind_assoc]
    exact findsWorkdir_bind hw branchId f

/-- The head is read before the claim. -/
theorem headSha_bind (hw : w.NoGhost) (isRemote again : Bool) (f : Unit → Launch β) :
    ErrorsIn LaunchWorld.NoGhost (env.headSha isRemote again >>= f) w ↔
      (env.ReadsHead isRemote again → ErrorsIn LaunchWorld.NoGhost (f ()) w) := by
  unfold headSha ReadsHead
  cases isRemote with
  | true => exact ⟨fun hf _ => hf, fun hf => hf (.inl rfl)⟩
  | false =>
    simp only [Bool.false_eq_true, if_false, false_or]
    exact call_bind hw ..

theorem triggerAutoReview_iff (h : w.claimed = []) (branchId : String) (provider : Option String) :
    ErrorsIn LaunchWorld.NoGhost (env.triggerAutoReview branchId provider) w ↔
      (LaunchOp.triggerAutoReview branchId provider).LaterCallsSucceed env w := by
  have hw := noGhost_of_claimed h
  unfold triggerAutoReview
  rw [branchAndProject_bind hw]
  refine forall_congr' fun branch => imp_congr_right fun _ => ?_
  split
  · rename_i e herror
    refine ⟨fun _ resolved hok => ?_, fun _ => hw⟩
    rw [herror] at hok
    cases hok
  · rename_i resolved hok
    rw [branchContext_bind hw]
    have hlaunch : ErrorsIn LaunchWorld.NoGhost (do
          env.headSha branch.workspaceName.isSome false
          env.launchRunningBranchSession branch (some resolved)) w ↔
        (env.ReadsHead branch.workspaceName.isSome false → env.Creates w →
          Registered w env.newSessionId ∨ env.Succeeds .createArtifact ∧
            env.RunnerStarts ⟨env.newSessionId, some resolved, branch.workspaceName⟩) := by
      rw [headSha_bind hw]
      exact imp_congr_right fun _ => createSession_createArtifact_bind h _ _
    rw [hlaunch]
    constructor
    · intro hstart resolved' hok'
      rw [hok] at hok'
      exact Except.ok.inj hok' ▸ hstart
    · exact fun hstart => hstart resolved hok

/-! ### A queued session -/

/-- After the claim every call of the pipeline has to succeed. -/
theorem startClaimedPipeline_iff (session : QueuedSession) :
    ErrorsIn LaunchWorld.NoGhost (env.startClaimedPipeline session) w ↔
      w.NoGhost ∨ env.Succeeds .markSessionArtifactStarted ∧ env.Succeeds .prepareQueuedSession ∧
        env.Succeeds .updateSessionPipeline := by
  have hregister : ErrorsIn LaunchWorld.NoGhost
      (register session.id >>= fun _ => pure (LaunchResponse.started true)) w ↔
      w.NoGhost ∨ True := ⟨fun _ => .inr trivial, fun _ => trivial⟩
  unfold startClaimedPipeline
  rw [call_bind_later (call_bind_later (call_bind_later hregister)), and_true]

theorem resolveBranchPipelineContext_bind (hw : w.NoGhost) (branchId : String)
    (f : Unit → Launch β) :
    ErrorsIn LaunchWorld.NoGhost (env.resolveBranchPipelineContext branchId >>= f) w ↔
      ∀ branch, env.FindsBranch w branchId false branch → env.Succeeds .resolveBranchRepo →
        (if branch.isRemote then env.Succeeds .clonePath else env.FindsWorkdir w branchId) →
        ErrorsIn LaunchWorld.NoGhost (f ()) w := by
  unfold resolveBranchPipelineContext
  rw [errorsIn_bind_assoc, branchAndProject_bind hw]
  refine forall_congr' fun branch => imp_congr_right fun _ => ?_
  rw [errorsIn_bind_assoc, call_bind hw]
  refine imp_congr_right fun _ => ?_
  cases branch.isRemote with
  | true => exact call_bind hw ..
  | false =>
    simp only [Bool.false_eq_true, if_false, bind_assoc]
    exact findsWorkdir_bind hw branchId f

theorem startQueuedCommitPipelineForBranch_iff (h : w.claimed = []) (branchId : String)
    (session : QueuedSession) :
    ErrorsIn LaunchWorld.NoGhost (env.startQueuedCommitPipelineForBranch branchId session) w ↔
      (session.pipelineKind ≠ none → ∀ branch, env.FindsBranch w branchId false branch →
        env.Succeeds .resolveBranchRepo →
        (if branch.isRemote then env.Succeeds .clonePath else env.FindsWorkdir w branchId) →
        env.Succeeds .transitionQueuedToRunning → Claims w session.id (· = .queued) →
        Registered w session.id ∨ env.Succeeds .markSessionArtifactStarted ∧
          env.Succeeds .prepareQueuedSession ∧ env.Succeeds .updateSessionPipeline) := by
  have hw := noGhost_of_claimed h
  have hclaim := claim_bind h session.id (· = .queued) (fun transitioned =>
    if transitioned then env.startClaimedPipeline session else pure (.started false))
    (fun u _ => startClaimedPipeline_iff session) trivial
  have hrest : ErrorsIn LaunchWorld.NoGhost (do
        env.resolveBranchPipelineContext branchId
        env.call .transitionQueuedToRunning
        let transitioned ← claim session.id (·.transitionQueuedToRunning session.id)
        if transitioned then env.startClaimedPipeline session else pure (.started false)) w ↔
      ∀ branch, env.FindsBranch w branchId false branch → env.Succeeds .resolveBranchRepo →
        (if branch.isRemote then env.Succeeds .clonePath else env.FindsWorkdir w branchId) →
        env.Succeeds .transitionQueuedToRunning → Claims w session.id (· = .queued) →
        Registered w session.id ∨ env.Succeeds .markSessionArtifactStarted ∧
          env.Succeeds .prepareQueuedSession ∧ env.Succeeds .updateSessionPipeline := by
    rw [resolveBranchPipelineContext_bind hw, call_bind hw]
    exact forall_congr' fun branch => imp_congr_right fun _ => imp_congr_right fun _ =>
      imp_congr_right fun _ => imp_congr_right fun _ => hclaim
  unfold startQueuedCommitPipelineForBranch
  rw [orThrow_bind hw]
  cases hkind : session.pipelineKind with
  | none => exact ⟨fun _ hne => absurd rfl hne, fun _ => nofun⟩
  | some kind =>
    exact ⟨fun hstart _ => hrest.mp (hstart kind rfl), fun hstart _ _ =>
      hrest.mpr (hstart (Option.some_ne_none kind))⟩

/-- After the claim the head has to be read. -/
theorem headSha_bind_later {again : Bool} (h : ErrorsIn LaunchWorld.NoGhost (f ()) w ↔ w.NoGhost ∨ Q) :
    ErrorsIn LaunchWorld.NoGhost (env.headSha isRemote again >>= f) w ↔
      w.NoGhost ∨ env.ReadsHead isRemote again ∧ Q := by
  unfold headSha ReadsHead
  cases isRemote with
  | true => simpa using h
  | false =>
    simp only [Bool.false_eq_true, if_false, false_or]
    exact call_bind_later h

/-- After the claim the head has to be read, where it is needed. -/
theorem headShaIf_bind_later {needed again : Bool}
    (h : ErrorsIn LaunchWorld.NoGhost (f ()) w ↔ w.NoGhost ∨ Q) :
    ErrorsIn LaunchWorld.NoGhost (env.headShaIf needed isRemote again >>= f) w ↔
      w.NoGhost ∨ (needed = true → env.ReadsHead isRemote again) ∧ Q := by
  unfold headShaIf
  cases needed with
  | true => simpa using headSha_bind_later h
  | false => simpa using h

/-- After the claim the review has to be updated, where there is one. -/
theorem updateReview_bind_later {reviewId : Option String}
    (h : ErrorsIn LaunchWorld.NoGhost (f ()) w ↔ w.NoGhost ∨ Q) :
    ErrorsIn LaunchWorld.NoGhost (env.updateReview reviewId isRemote >>= f) w ↔
      w.NoGhost ∨ (reviewId.isSome = true → env.ReadsHead isRemote false ∧
        env.Succeeds .updateReviewCommitSha) ∧ Q := by
  unfold updateReview
  cases reviewId with
  | none => simpa using h
  | some id =>
    simp only [Option.isSome_some, if_true, bind_assoc]
    rw [headSha_bind_later (call_bind_later h), true_imp_iff, and_assoc]

/-- After the claim every call of a session has to succeed. -/
theorem startClaimedSession_iff (type : BranchSessionType) (reviewId : Option String)
    (branch : Branch) (session : QueuedSession) (provider : Option String) :
    ErrorsIn LaunchWorld.NoGhost
        (env.startClaimedSession type reviewId branch session provider) w ↔
      w.NoGhost ∨ env.StartsClaimed type reviewId branch
        ⟨session.id, provider, branch.workspaceName⟩ := by
  unfold startClaimedSession StartsClaimed
  rw [call_bind_later (call_bind_later (updateReview_bind_later (headShaIf_bind_later
    (runnerStartSession_bind _ _))))]
  simp only [decide_eq_true_eq]

/-- The provider is resolved before the claim. -/
theorem effectiveProvider_bind (hw : w.NoGhost) (type : BranchSessionType) (session : QueuedSession)
    (provider : Option String) (isRemote : Bool) (f : Option String → Launch β) :
    ErrorsIn LaunchWorld.NoGhost (env.effectiveProvider type session provider isRemote >>= f) w ↔
      ∀ resolved, env.EffectiveProvider type session provider isRemote resolved →
        ErrorsIn LaunchWorld.NoGhost (f resolved) w := by
  unfold effectiveProvider EffectiveProvider
  by_cases htype : type = .review
  · simp only [if_pos htype]
    split
    · rename_i e herror
      refine ⟨?_, fun _ => hw⟩
      rintro - resolved ⟨p, hok, -⟩
      rw [herror] at hok
      cases hok
    · rename_i p hok
      have hstore : ErrorsIn LaunchWorld.NoGhost (env.storeProvider session p >>= fun _ =>
            f (some p)) w ↔
          (session.provider = some p ∨ env.Succeeds .setSessionProvider →
            ErrorsIn LaunchWorld.NoGhost (f (some p)) w) := by
        unfold storeProvider
        split
        · rename_i hsame
          exact ⟨fun hf _ => hf, fun hf => hf (.inl hsame)⟩
        · rename_i hother
          rw [call_bind hw]
          tauto
      rw [errorsIn_bind_assoc]
      refine hstore.trans ⟨?_, ?_⟩
      · rintro hf resolved ⟨p', hok', hstored, rfl⟩
        rw [hok] at hok'
        obtain rfl := Except.ok.inj hok'
        exact hf hstored
      · exact fun hf hstored => hf (some p) ⟨p, hok, hstored, rfl⟩
  · simp only [if_neg htype]
    exact ⟨fun hf resolved heq => heq ▸ hf, fun hf => hf _ rfl⟩

theorem startQueuedSessionForBranch_iff (h : w.claimed = []) (branchId : String)
    (session : QueuedSession) (schedule : BranchSessionSchedule) (provider : Option String) :
    ErrorsIn LaunchWorld.NoGhost
        (env.startQueuedSessionForBranch branchId session schedule provider) w ↔
      (LaunchOp.startQueuedSession branchId session schedule provider).LaterCallsSucceed env w := by
  have hw := noGhost_of_claimed h
  -- all kinds but the pipeline go the same way
  have hagent : ∀ type, ErrorsIn LaunchWorld.NoGhost (do
        env.call .extractLaunchContext
        let branch ← env.branchAndProject branchId false
        let provider ← env.effectiveProvider type session provider branch.workspaceName.isSome
        env.branchContext branchId branch.workspaceName.isSome
        env.call .transitionQueuedToRunning
        let transitioned ← claim session.id (·.transitionQueuedToRunning session.id)
        if transitioned then env.startClaimedSession type schedule.reviewId branch session provider
        else pure (.started false)) w ↔
      (env.Succeeds .extractLaunchContext → ∀ branch, env.FindsBranch w branchId false branch →
        ∀ resolved, env.EffectiveProvider type session provider branch.workspaceName.isSome resolved →
        env.BuildsContext w branchId branch.workspaceName.isSome →
        env.Succeeds .transitionQueuedToRunning → Claims w session.id (· = .queued) →
        Registered w session.id ∨ env.StartsClaimed type schedule.reviewId branch
          ⟨session.id, resolved, branch.workspaceName⟩) := by
    intro type
    rw [call_bind hw]
    refine imp_congr_right fun _ => ?_
    rw [branchAndProject_bind hw]
    refine forall_congr' fun branch => imp_congr_right fun _ => ?_
    rw [effectiveProvider_bind hw]
    refine forall_congr' fun resolved => imp_congr_right fun _ => ?_
    rw [branchContext_bind hw]
    refine imp_congr_right fun _ => ?_
    rw [call_bind hw]
    refine imp_congr_right fun _ => ?_
    exact claim_bind h session.id (· = .queued) _
      (fun u _ => startClaimedSession_iff type schedule.reviewId branch session resolved) trivial
  obtain ⟨kind, reviewId⟩ := schedule
  cases kind with
  | commitPipeline => exact startQueuedCommitPipelineForBranch_iff h branchId session
  | commit => exact hagent .commit
  | note => exact hagent .note
  | review => exact hagent .review

/-! ### A branch session -/

theorem headShaIf_bind (hw : w.NoGhost) (needed isRemote again : Bool) (f : Unit → Launch β) :
    ErrorsIn LaunchWorld.NoGhost (env.headShaIf needed isRemote again >>= f) w ↔
      ((needed = true → env.ReadsHead isRemote again) → ErrorsIn LaunchWorld.NoGhost (f ()) w) := by
  unfold headShaIf
  cases needed with
  | true => simpa using headSha_bind hw isRemote again f
  | false => simp

theorem resolveBranchSessionProvider_bind (hw : w.NoGhost) (branchId : String)
    (type : BranchSessionType) (provider : Option String) (f : Option String → Launch β) :
    ErrorsIn LaunchWorld.NoGhost
        (env.resolveBranchSessionProvider branchId type provider >>= f) w ↔
      ∀ resolved, env.ResolvesProvider w branchId type provider resolved →
        ErrorsIn LaunchWorld.NoGhost (f resolved) w := by
  unfold resolveBranchSessionProvider ResolvesProvider
  rw [errorsIn_bind_assoc, call_bind hw]
  simp only [and_imp, forall_exists_index]
  rw [forall_comm]
  refine imp_congr_right fun _ => ?_
  rw [errorsIn_bind_assoc, errorsIn_get_bind, errorsIn_bind_assoc, orThrow_bind hw, forall_comm]
  refine forall_congr' fun branch => ?_
  rw [forall_comm]
  refine imp_congr_right fun _ => ?_
  by_cases htype : type = .review
  · simp only [if_pos htype]
    split
    · rename_i p hok
      constructor
      · rintro hf resolved ⟨p', hok', rfl⟩
        rw [hok] at hok'
        exact Except.ok.inj hok' ▸ hf
      · exact fun hf => hf (some p) ⟨p, hok, rfl⟩
    · rename_i e herror
      refine ⟨?_, fun _ => hw⟩
      rintro - resolved ⟨p', hok', -⟩
      rw [herror] at hok'
      cases hok'
  · simp only [if_neg htype]
    exact ⟨fun hf resolved heq => heq ▸ hf, fun hf => hf provider rfl⟩

/-- Whether to queue is asked before the claim. -/
theorem shouldQueueBranchSessionStart_bind (hw : w.NoGhost) (again : Bool) (f : Bool → Launch β) :
    ErrorsIn LaunchWorld.NoGhost (env.shouldQueueBranchSessionStart again >>= f) w ↔
      (env.Succeeds (.shouldQueue again) →
        ErrorsIn LaunchWorld.NoGhost (f (env.shouldQueue again)) w) := by
  unfold shouldQueueBranchSessionStart
  rw [errorsIn_bind_assoc, call_bind hw]
  exact Iff.rfl

/-- An error leaves the queued row behind, which is not running. -/
theorem errorsIn_insertQueuedBranchSession (h : w.claimed = []) :
    ErrorsIn LaunchWorld.NoGhost env.insertQueuedBranchSession w := by
  have hw := noGhost_of_claimed h
  have hqueued := noGhost_claimed_queued h env.newSessionId
  unfold insertQueuedBranchSession
  rw [call_bind hw]
  intro _
  rw [createSession_bind hw]
  intro _
  rw [call_bind hqueued]
  intro _
  rw [call_bind hqueued]
  exact fun _ => trivial

/-- A check either queues the session or lets it go on. -/
theorem shouldQueue_or (h : w.claimed = []) (again : Bool) (x : Launch LaunchResponse) :
    ErrorsIn LaunchWorld.NoGhost (do
        let queue ← env.shouldQueueBranchSessionStart again
        if queue then env.insertQueuedBranchSession else x) w ↔
      (env.Succeeds (.shouldQueue again) ∧ env.shouldQueue again = false →
        ErrorsIn LaunchWorld.NoGhost x w) := by
  rw [shouldQueueBranchSessionStart_bind (noGhost_of_claimed h), and_imp]
  refine imp_congr_right fun _ => ?_
  cases env.shouldQueue again with
  | true => exact ⟨fun _ => nofun, fun _ => errorsIn_insertQueuedBranchSession h⟩
  | false => exact ⟨fun hx _ => hx, fun hx => hx rfl⟩

theorem prepareBranchSessionStart_bind (hw : w.NoGhost) (branchId : String)
    (type : BranchSessionType) (f : Branch → Launch β) :
    ErrorsIn LaunchWorld.NoGhost (env.prepareBranchSessionStart branchId type >>= f) w ↔
      ∀ branch, env.FindsBranch w branchId true branch →
        env.BuildsContext w branchId branch.workspaceName.isSome →
        (type ≠ .note → env.ReadsHead branch.workspaceName.isSome false) →
        ErrorsIn LaunchWorld.NoGhost (f branch) w := by
  unfold prepareBranchSessionStart
  rw [errorsIn_bind_assoc, branchAndProject_bind hw]
  refine forall_congr' fun branch => imp_congr_right fun _ => ?_
  rw [errorsIn_bind_assoc, branchContext_bind hw]
  refine imp_congr_right fun _ => ?_
  rw [errorsIn_bind_assoc, headShaIf_bind hw, decide_eq_true_eq]
  exact Iff.rfl

theorem startOrQueue_iff (h : w.claimed = []) (branchId : String) (type : BranchSessionType)
    (provider : Option String) :
    ErrorsIn LaunchWorld.NoGhost (env.startOrQueue branchId type provider) w ↔
      ∀ resolved, env.ResolvesProvider w branchId type provider resolved →
        ∀ branch, env.InsertsRunning w branchId type branch →
        Registered w env.newSessionId ∨ env.Succeeds .createArtifact ∧
          env.RunnerStarts ⟨env.newSessionId, resolved, branch.workspaceName⟩ := by
  have hw := noGhost_of_claimed h
  unfold startOrQueue InsertsRunning
  rw [resolveBranchSessionProvider_bind hw]
  refine forall_congr' fun resolved => imp_congr_right fun _ => ?_
  rw [shouldQueue_or h, prepareBranchSessionStart_bind hw]
  simp only [and_imp, shouldQueue_or h, launchRunningBranchSession,
    createSession_createArtifact_bind h]
  exact ⟨fun hstart branch hfirst hfirst' => hstart hfirst hfirst' branch,
    fun hstart hfirst hfirst' branch => hstart branch hfirst hfirst'⟩

/-- What the cancellation of an automatic review leaves as it is: everything that the rest of a launch
depends on. -/
structure Unaffected (w u : LaunchWorld) : Prop where
  claimed : u.claimed = []
  branches : u.branches = w.branches
  projects : u.projects = w.projects
  workdirs : u.workdirs = w.workdirs
  running : u.registry.running = w.registry.running
  sessions : ∀ id, u.sessions id = none ↔ w.sessions id = none

/-- What was cancelled before does not matter to the start. -/
theorem startOrQueue_iff_of_unaffected {u : LaunchWorld} (hu : Unaffected w u) (branchId : String)
    (type : BranchSessionType) (provider : Option String) :
    ErrorsIn LaunchWorld.NoGhost (env.startOrQueue branchId type provider) u ↔
      ∀ resolved, env.ResolvesProvider w branchId type provider resolved →
        ∀ branch, env.InsertsRunning w branchId type branch →
        Registered w env.newSessionId ∨ env.Succeeds .createArtifact ∧
          env.RunnerStarts ⟨env.newSessionId, resolved, branch.workspaceName⟩ := by
  rw [startOrQueue_iff hu.claimed]
  simp only [ResolvesProvider, InsertsRunning, FindsBranch, BuildsContext, FindsWorkdir, Creates,
    Registered, hu.branches, hu.projects, hu.workdirs, hu.running, hu.sessions]

/-- `registry.cancel` changes a token and no entry. -/
theorem unaffected_cancel (h : w.claimed = []) (id : String) (sessions : SessionTable)
    (hsessions : ∀ id, sessions id = none ↔ w.sessions id = none) :
    ∃ u, Unaffected w u ∧ u.NoGhost ∧ Unaffected w { u with sessions } ∧
      ∀ f : Unit → Launch β, ErrorsIn LaunchWorld.NoGhost (cancel id >>= f) w ↔
        ErrorsIn LaunchWorld.NoGhost (f ()) u := by
  cases hlookup : w.registry.running.lookup id with
  | none =>
    refine ⟨w, ⟨h, rfl, rfl, rfl, rfl, fun _ => Iff.rfl⟩, noGhost_of_claimed h,
      ⟨h, rfl, rfl, rfl, rfl, hsessions⟩, fun f => ?_⟩
    unfold cancel
    rw [errorsIn_modify_bind, hlookup]
  | some ref =>
    refine ⟨{ w with registry := w.registry.applyCancellation ref .interrupted },
      ⟨h, rfl, rfl, rfl, rfl, fun _ => Iff.rfl⟩, noGhost_of_claimed h,
      ⟨h, rfl, rfl, rfl, rfl, hsessions⟩, fun f => ?_⟩
    unfold cancel
    rw [errorsIn_modify_bind, hlookup]

theorem cancelInFlightAutoReviewForBranch_bind (h : w.claimed = []) (branchId : String) (f : Bool → Launch β)
    (hf : ∀ any u, Unaffected w u → (ErrorsIn LaunchWorld.NoGhost (f any) u ↔ Q)) :
    ErrorsIn LaunchWorld.NoGhost (env.cancelInFlightAutoReviewForBranch branchId >>= f) w ↔
      (env.CancelsAutoReview w branchId → Q) := by
  have hw := noGhost_of_claimed h
  have hself : Unaffected w w := ⟨h, rfl, rfl, rfl, rfl, fun _ => Iff.rfl⟩
  unfold cancelInFlightAutoReviewForBranch CancelsAutoReview
  rw [errorsIn_bind_assoc, call_bind hw, and_imp]
  refine imp_congr_right fun _ => ?_
  rw [errorsIn_bind_assoc, errorsIn_get_bind]
  split
  · rename_i hnone
    refine (hf false w hself).trans ⟨fun hQ _ => hQ, fun hQ => hQ fun id hid => ?_⟩
    rw [hnone] at hid
    cases hid
  · rename_i hnone
    refine (hf false w hself).trans ⟨fun hQ _ => hQ, fun hQ => hQ fun id hid => ?_⟩
    rw [hnone] at hid
    cases hid
  · rename_i id hreview
    simp only [hreview, Option.some.injEq, forall_eq']
    rw [errorsIn_bind_assoc, call_bind hw, and_imp]
    refine imp_congr_right fun _ => ?_
    split
    · rename_i hnone
      exact (hf false w hself).trans ⟨fun hQ _ => hQ, fun hQ => hQ fun session hrow =>
        absurd (hnone.symm.trans hrow).symm (Option.some_ne_none session)⟩
    · rename_i session hrow
      simp only [hrow, Option.some.injEq, forall_eq']
      split
      · rename_i hactive
        -- the row is queued or running, so `transition_from_active` updates it
        have hupdate := w.sessions.updateWhere_cases id
          (fun status => status = .queued || status = .running) ⟨.cancelled, some .interrupted⟩
        obtain ⟨hno, hnone⟩ | ⟨row, -, -, heq⟩ := hupdate
        · have hfalse := hnone session hrow
          simp only [Bool.or_eq_false_iff, decide_eq_false_iff_not] at hfalse
          tauto
        · have hrows : ∀ k, Function.update w.sessions id
              (some ⟨.cancelled, some .interrupted⟩) k = none ↔ w.sessions k = none := by
            intro k
            by_cases hk : k = id
            · subst hk
              simp [hrow]
            · rw [Function.update_of_ne hk]
          obtain ⟨u, -, hghost, hdone, hcancel⟩ := unaffected_cancel h id _ hrows
          rw [errorsIn_bind_assoc, hcancel, errorsIn_bind_assoc, call_bind hghost]
          simp only [hactive, true_imp_iff]
          refine imp_congr_right fun _ => ?_
          simp only [SessionTable.transitionFromActive, heq]
          exact hf true _ hdone
      · rename_i hidle
        exact (hf false w hself).trans ⟨fun hQ _ => hQ, fun hQ => hQ fun hactive =>
          absurd hactive hidle⟩

theorem startOrQueueBranchSessionForStore_iff (h : w.claimed = []) (branchId : String)
    (type : BranchSessionType) (provider : Option String) :
    ErrorsIn LaunchWorld.NoGhost
        (env.startOrQueueBranchSessionForStore branchId type provider) w ↔
      (LaunchOp.startOrQueueBranchSession branchId type provider).LaterCallsSucceed env w := by
  unfold startOrQueueBranchSessionForStore LaunchOp.LaterCallsSucceed
  by_cases htype : type = .note
  · rw [if_pos htype, startOrQueue_iff h]
    simp only [htype, true_or, true_imp_iff]
  · rw [if_neg htype, cancelInFlightAutoReviewForBranch_bind h branchId _ fun _ u hu =>
      startOrQueue_iff_of_unaffected hu branchId type provider]
    simp only [htype, false_or]

end LaunchEnv

/-- A ghost is left behind only by a call that fails. -/
theorem ghostFree_iff_errorsIn (x : Launch LaunchResponse) (w : LaunchWorld) :
    GhostFree (x w) ↔ ErrorsIn LaunchWorld.NoGhost x w := by
  unfold GhostFree ErrorsIn
  cases x w with
  | ok _ _ => rfl
  | error _ _ => rfl

/-- A launch that returns an error leaves no running row without an entry in the registry exactly when
no call fails after the row was inserted or claimed. -/
theorem launch_ghostFree_iff (op : LaunchOp) (env : LaunchEnv) (w : LaunchWorld) :
    GhostFree (op.run env w) ↔ op.LaterCallsSucceed env w := by
  have h : ({ w with claimed := [] } : LaunchWorld).claimed = [] := rfl
  refine (ghostFree_iff_errorsIn (op.program env) _).trans ?_
  cases op with
  | startSession provider => exact LaunchEnv.startSession_iff h provider
  | resumeSession id branchId => exact LaunchEnv.resumeSession_iff h id branchId
  | startProjectSession projectId provider =>
    exact LaunchEnv.startProjectSession_iff h projectId provider
  | startOrQueueBranchSession branchId type provider =>
    exact LaunchEnv.startOrQueueBranchSessionForStore_iff h branchId type provider
  | startQueuedSession branchId session schedule provider =>
    exact LaunchEnv.startQueuedSessionForBranch_iff h branchId session schedule provider
  | triggerAutoReview branchId provider =>
    exact LaunchEnv.triggerAutoReview_iff h branchId provider

/-- A local branch with a queued session. -/
def oneBranch : LaunchWorld where
  sessions := fun id => if id = "queued" then some ⟨.queued, none⟩ else none
  providers := fun _ => none
  artifactBranches := fun _ => some "branch"
  branches := fun _ => some ⟨"project", none, false⟩
  projects := fun _ => true
  workdirs := fun _ => true
  freshAutoReviews := fun _ => none
  registry := .new
  claimed := []

/-- Only this call fails. -/
def failingAt (site : LaunchSite) (e : String) : LaunchEnv where
  failure := fun s => if s = site then some e else none
  newSessionId := "new"
  newArtifactId := "artifact"
  shouldQueue := fun _ => false
  discoverProviders := ["goose"]
  recentAgentIds := []

/-- A session whose agent is not found, and a queued commit session whose HEAD cannot be read. -/
theorem failed_launches_leave_ghosts :
    (∃ u, (LaunchOp.startSession (some "amp")).run (failingAt .createDriver "not found") oneBranch
        = .error "not found" u ∧
      u.claimed = ["new"] ∧ u.sessions "new" = some ⟨.running, none⟩ ∧
      u.registry.running.lookup "new" = none ∧ ¬u.NoGhost) ∧
    ∃ u, (LaunchOp.startQueuedSession "branch" ⟨"queued", none, none⟩ ⟨.commit, none⟩ none).run
        (failingAt (.getHeadSha true) "no commit") oneBranch
        = .error "Failed to get HEAD SHA: no commit" u ∧
      u.claimed = ["queued"] ∧ u.sessions "queued" = some ⟨.running, none⟩ ∧
      u.registry.running.lookup "queued" = none ∧ ¬u.NoGhost := by
  have hghost : ∀ {u : LaunchWorld} {id : String}, u.claimed = [id] →
      u.sessions id = some ⟨.running, none⟩ → u.registry.running.lookup id = none → ¬u.NoGhost := by
    intro u id hclaimed hrow hnone hno
    refine hno id ?_ ?_ hnone
    · rw [hclaimed]
      exact List.mem_singleton_self id
    · rw [hrow]
      rfl
  constructor
  · exact ⟨_, rfl, rfl, rfl, rfl, hghost rfl rfl rfl⟩
  · exact ⟨_, rfl, rfl, rfl, rfl, hghost rfl rfl rfl⟩

end Builderbot.Staged
