import Mathlib.Data.Finset.Basic
import Builderbot.Lib.Run

/-!
# Launching the sessions of a branch

The calls that make a session of a branch run, from `apps/staged/src-tauri/src/session_commands.rs`
and `prs.rs`, as one system over the session rows of the store:

* `start_or_queue_branch_session_for_store` and `queue_branch_session_for_store`, which check and
  insert under the launch lock of the branch;
* `drain_queued_sessions_for_branch`, which takes no lock: it reads the queue, then the running
  sessions, and claims the queued sessions one after the other;
* `start_or_queue_commit_pipeline_for_branch`, which takes no lock either;
* `resume_session`, which makes a row run without a look at the others.

A step is one store access (or taking the lock). A session belongs to a branch through its artifact,
which is inserted after the row. Row ids stand for the order of `created_at`.
-/

namespace Builderbot.Staged

/-! ## Kinds of sessions -/

/-- `BranchSessionScheduleKind`. -/
inductive BranchSessionScheduleKind where
  | commit
  | note
  | review
  | commitPipeline
deriving DecidableEq, Repr

namespace BranchSessionScheduleKind

/-- `is_exclusive`. -/
def isExclusive : BranchSessionScheduleKind → Bool
  | commit | commitPipeline => true
  | note | review => false

/-- `allows_parallel_instances`. -/
def allowsParallelInstances : BranchSessionScheduleKind → Bool
  | note => true
  | _ => false

end BranchSessionScheduleKind

/-- `can_start_with_active_branch_sessions`. -/
def canStartWithActiveBranchSessions (candidate : BranchSessionScheduleKind)
    (active : Finset BranchSessionScheduleKind) : Bool :=
  if candidate.isExclusive then active = ∅
  else if ∃ kind ∈ active, kind.isExclusive = true then false
  else candidate.allowsParallelInstances || candidate ∉ active

/-- `BranchSessionType`. -/
inductive BranchSessionType where
  | note
  | commit
  | review
deriving DecidableEq, Repr

/-- What a session row is for: its artifact, and whether it carries a commit pipeline. -/
inductive SessionKind where
  | note
  | commit
  | review (isAuto : Bool)
  | commitPipeline
deriving DecidableEq, Repr

namespace SessionKind

/-- The `kind` of the session's `BranchSessionSchedule`. -/
def scheduleKind : SessionKind → BranchSessionScheduleKind
  | note => .note
  | commit => .commit
  | review _ => .review
  | commitPipeline => .commitPipeline

/-- The `blocks_queue` of the session's `BranchSessionSchedule`: only automatic reviews do not. -/
def blocksQueue : SessionKind → Bool
  | review isAuto => !isAuto
  | _ => true

end SessionKind

/-- The session that `insert_running_branch_session` and `insert_queued_branch_session` create. -/
def BranchSessionType.sessionKind : BranchSessionType → SessionKind
  | note => .note
  | commit => .commit
  | review => .review false

/-! ## The store -/

/-- `SessionStatus`. -/
inductive SessionStatus where
  | queued
  | running
  | completed
  | error
  | cancelled
deriving DecidableEq, Repr

/-- A row of the session table with its artifact: `branch` is the branch of the artifact and `none`
until the artifact is inserted. -/
structure SessionRow where
  status : SessionStatus
  kind : SessionKind
  branch : Option String
deriving DecidableEq, Repr

/-- `resolve_branch_session_schedule` of a row. -/
def SessionRow.schedule (r : SessionRow) (branchId : String) :
    Option (BranchSessionScheduleKind × Bool) :=
  if r.branch = some branchId then some (r.kind.scheduleKind, r.kind.blocksQueue) else none

/-- The row is a running session of the branch that is not an automatic review. -/
def SessionRow.runsIn (r : SessionRow) (branchId : String) : Bool :=
  r.status = .running && r.branch = some branchId && r.kind.blocksQueue

/-- The row is a queued session of the branch. -/
def SessionRow.waitsIn (r : SessionRow) (branchId : String) : Bool :=
  r.status = .queued && r.branch = some branchId

/-- `running_branch_session_kinds`. -/
def runningBranchSessionKinds (rows : List SessionRow) (branchId : String) :
    Finset BranchSessionScheduleKind :=
  ((rows.filter (·.runsIn branchId)).map (·.kind.scheduleKind)).toFinset

/-- `get_queued_sessions_for_branch`: the ids of the queued sessions, oldest first. -/
def getQueuedSessionsForBranch (rows : List SessionRow) (branchId : String) : List ℕ :=
  (List.range rows.length).filter fun id => (rows[id]?).any (·.waitsIn branchId)

/-- `has_queued_user_branch_session`. -/
def hasQueuedUserBranchSession (rows : List SessionRow) (branchId : String) : Bool :=
  rows.any fun r => r.waitsIn branchId && r.kind.blocksQueue

/-- `has_running_session_for_branch`. -/
def hasRunningSessionForBranch (rows : List SessionRow) (branchId : String) : Bool :=
  rows.any (·.runsIn branchId)

/-- Set the status of a row. -/
def setStatus (rows : List SessionRow) (id : ℕ) (status : SessionStatus) : List SessionRow :=
  rows.modify id fun r => { r with status }

/-- Insert the artifact of a row. -/
def linkArtifact (rows : List SessionRow) (id : ℕ) (branchId : String) : List SessionRow :=
  rows.modify id fun r => { r with branch := some branchId }

/-! ## The calls -/

/-- Where a call under the launch lock stands. -/
inductive LaunchPc where
  /-- About to take the lock, for the first check or, after `prepare`, for the second. -/
  | begin (second : Bool)
  /-- Holds the lock and reads the queue next. -/
  | locked (second : Bool)
  /-- Has found no queued user session and reads the running ones next. -/
  | noQueue (second : Bool)
  /-- Is to insert a queued row. -/
  | enqueue
  /-- Has inserted a queued row and is to insert its artifact. -/
  | enqueued (row : ℕ)
  /-- Is to insert a running row. -/
  | launch
  /-- Has inserted a running row and is to insert its artifact. -/
  | launched (row : ℕ)
deriving DecidableEq, Repr

/-- Where a drain stands. -/
inductive DrainPc where
  | begin
  /-- Has the rest of its queue snapshot and computes the active set next. -/
  | snapshot (queue : List ℕ)
  /-- Has the rest of its queue snapshot and an active set. -/
  | ready (queue : List ℕ) (active : Finset BranchSessionScheduleKind)
deriving DecidableEq

/-- Where a commit-pipeline call stands. -/
inductive PipelinePc where
  | begin
  /-- Knows whether the branch has a running session and reads the queue next. -/
  | checked (hasRunning : Bool)
  /-- Is to insert a row with the status. -/
  | insert (status : SessionStatus)
  /-- Has inserted the row and is to insert its commit. -/
  | inserted (row : ℕ)
deriving DecidableEq, Repr

/-- A call in progress. `launch` is `start_or_queue_branch_session_for_store`, and with
`queueOnly` it is `queue_branch_session_for_store`. -/
inductive Call where
  | idle
  | launch (branchId : String) (type : BranchSessionType) (queueOnly : Bool) (pc : LaunchPc)
  | drain (branchId : String) (pc : DrainPc)
  | pipeline (branchId : String) (pc : PipelinePc)
deriving DecidableEq

/-- The branch whose launch lock the call holds. -/
def Call.holds : Call → Option String
  | launch branchId _ _ pc =>
    match pc with
    | .begin _ => none
    | _ => some branchId
  | _ => none

/-- The session rows, the calls in progress by number, and the holder of each branch's launch
lock. -/
structure LaunchState where
  rows : List SessionRow
  calls : ℕ → Call
  lock : String → Option ℕ

namespace LaunchState

/-- A store with no call in progress. -/
def init (rows : List SessionRow) : LaunchState := ⟨rows, fun _ => .idle, fun _ => none⟩

variable (s : LaunchState)

/-- The call goes on at another place. -/
def goto (c : ℕ) (call : Call) : LaunchState :=
  { s with calls := Function.update s.calls c call }

/-- Release the launch lock if the call holds it. -/
def unlock (c : ℕ) : LaunchState :=
  match (s.calls c).holds with
  | some branchId => { s with lock := Function.update s.lock branchId none }
  | none => s

/-- Insert a row without its artifact. -/
def insertRow (status : SessionStatus) (kind : SessionKind) : LaunchState :=
  { s with rows := s.rows ++ [⟨status, kind, none⟩] }

/-- The next step of a call under the launch lock. `waits` is
`branch_session_start_waits_for_provisioning`. -/
def advanceLaunch (c : ℕ) (waits : Bool) (branchId : String) (type : BranchSessionType)
    (queueOnly : Bool) : LaunchPc → Option LaunchState
  | .begin second =>
    if s.lock branchId = none then
      some { s.goto c (.launch branchId type queueOnly
            (if queueOnly then .enqueue else .locked second)) with
        lock := Function.update s.lock branchId (some c) }
    else none
  | .locked second =>
    some (s.goto c (.launch branchId type queueOnly
      (if waits || hasQueuedUserBranchSession s.rows branchId then .enqueue else .noQueue second)))
  | .noQueue second =>
    if canStartWithActiveBranchSessions type.sessionKind.scheduleKind
        (runningBranchSessionKinds s.rows branchId) then
      -- `prepare` runs between the two checks, without the lock
      if second then some (s.goto c (.launch branchId type queueOnly .launch))
      else some ((s.unlock c).goto c (.launch branchId type queueOnly (.begin true)))
    else some (s.goto c (.launch branchId type queueOnly .enqueue))
  | .enqueue =>
    some ((s.insertRow .queued type.sessionKind).goto c
      (.launch branchId type queueOnly (.enqueued s.rows.length)))
  | .launch =>
    some ((s.insertRow .running type.sessionKind).goto c
      (.launch branchId type queueOnly (.launched s.rows.length)))
  | .enqueued row | .launched row =>
    some ({ s.unlock c with rows := linkArtifact s.rows row branchId }.goto c .idle)

/-- The next step of a drain. The claim is `transition_queued_to_running`; when it fails, the active
set is computed again. -/
def advanceDrain (c : ℕ) (branchId : String) : DrainPc → LaunchState
  | .begin => s.goto c (.drain branchId (.snapshot (getQueuedSessionsForBranch s.rows branchId)))
  | .snapshot queue =>
    s.goto c (.drain branchId (.ready queue (runningBranchSessionKinds s.rows branchId)))
  | .ready [] _ => s.goto c .idle
  | .ready (id :: queue) active =>
    match s.rows[id]? with
    | none => s.goto c (.drain branchId (.ready queue active))
    | some r =>
      match r.schedule branchId with
      | none => s.goto c (.drain branchId (.ready queue active))
      | some (kind, blocksQueue) =>
        -- the queue is FIFO: a session that cannot start ends the drain
        if canStartWithActiveBranchSessions kind active = false then s.goto c .idle
        else if r.status = .queued then
          { s with rows := setStatus s.rows id .running }.goto c (.drain branchId
            (.ready queue (if blocksQueue then insert kind active else active)))
        else s.goto c (.drain branchId (.snapshot queue))

/-- The next step of a commit-pipeline call. -/
def advancePipeline (c : ℕ) (branchId : String) : PipelinePc → LaunchState
  | .begin => s.goto c (.pipeline branchId (.checked (hasRunningSessionForBranch s.rows branchId)))
  | .checked hasRunning =>
    s.goto c (.pipeline branchId (.insert
      (if hasRunning || getQueuedSessionsForBranch s.rows branchId ≠ [] then .queued
        else .running)))
  | .insert status =>
    (s.insertRow status .commitPipeline).goto c (.pipeline branchId (.inserted s.rows.length))
  | .inserted row => { s with rows := linkArtifact s.rows row branchId }.goto c .idle

end LaunchState

/-- The steps of the system. -/
inductive LaunchStep where
  | callStartOrQueue (c : ℕ) (branchId : String) (type : BranchSessionType)
  | callQueue (c : ℕ) (branchId : String) (type : BranchSessionType)
  | callDrain (c : ℕ) (branchId : String)
  | callPipeline (c : ℕ) (branchId : String)
  /-- The next step of a call. -/
  | advance (c : ℕ) (waits : Bool)
  /-- A call returns with an error in place of its next step. -/
  | fail (c : ℕ)
  /-- `cancel_session` writes the row it found queued or running. -/
  | cancel (row : ℕ)
  /-- `transition_from_running` to a terminal status. -/
  | finish (row : ℕ) (status : SessionStatus)
  /-- `transition_to_running` of `resume_session`. -/
  | resume (row : ℕ)
deriving DecidableEq, Repr

namespace LaunchState

/-- Begin a call under a number that is free. -/
def begin (s : LaunchState) (c : ℕ) (call : Call) : Option LaunchState :=
  if s.calls c = .idle then some (s.goto c call) else none

/-- One step, `none` when it is not possible. -/
def step (s : LaunchState) : LaunchStep → Option LaunchState
  | .callStartOrQueue c branchId type => s.begin c (.launch branchId type false (.begin false))
  | .callQueue c branchId type => s.begin c (.launch branchId type true (.begin false))
  | .callDrain c branchId => s.begin c (.drain branchId .begin)
  | .callPipeline c branchId => s.begin c (.pipeline branchId .begin)
  | .advance c waits =>
    match s.calls c with
    | .idle => none
    | .launch branchId type queueOnly pc => s.advanceLaunch c waits branchId type queueOnly pc
    | .drain branchId pc => some (s.advanceDrain c branchId pc)
    | .pipeline branchId pc => some (s.advancePipeline c branchId pc)
  | .fail c => some ((s.unlock c).goto c .idle)
  | .cancel row => some { s with rows := setStatus s.rows row .cancelled }
  | .finish row status =>
    match s.rows[row]? with
    | some r =>
      if r.status = .running ∧ status ≠ .running ∧ status ≠ .queued then
        some { s with rows := setStatus s.rows row status }
      else none
    | none => none
  | .resume row =>
    match s.rows[row]? with
    | some r =>
      if r.status ≠ .running then some { s with rows := setStatus s.rows row .running } else none
    | none => none

end LaunchState

end Builderbot.Staged
