import Builderbot.Actions.Executor
import Builderbot.Staged.TerminalOutput

/-!
# The registry of running actions

`ActionRegistry` of `apps/staged/src-tauri/src/actions/registry.rs`, and those who call it for an execution: the
listener of `events.rs`, the detection wiring of `run_branch_action_impl`, and the matcher or poller of
`run_detector.rs`. The four maps have a lock each, so a call that takes several locks is several steps, and
`unregister` is four.

* `run_clean_iff` says when an execution leaves nothing behind: what each map holds at the end is what was put there
  after `unregister` had passed it.
-/

namespace Builderbot.Actions

open Git (Text)
open Staged (TerminalOutputProcessor isPromptHostileControl)

inductive ActionType where
  | build
  | test
  | format
  | check
  | prerun
  | run
  | cleanUp
deriving DecidableEq, Repr

/-- How a "run" action detects whether the process is running. -/
inductive RunDetectionMode where
  | autodetect
  | endpointRegex (pattern : Text)
  | runningRegex (pattern : Text)
  | noDetection
deriving DecidableEq, Repr

/-! ## The registry -/

structure RunningActionInfo where
  executionId : ℕ
  branchId : Text
  actionId : Text
  actionName : Text
  actionType : ActionType
  startedAt : ℤ
deriving DecidableEq, Repr

inductive RunPhase where
  | building
  | running (endpoint : Option Text)
  | autodetectPending
  | noDetection
deriving DecidableEq, Repr

structure ActionRegistry where
  running : Table ℕ RunningActionInfo := ∅
  runPhases : Table ℕ RunPhase := ∅
  /-- The output buffers, as positions in `buffers`. -/
  outputBuffers : Table ℕ ℕ := ∅
  /-- The senders, with the value that was sent last. The channel is closed when its sender is removed. -/
  cancelSenders : Table ℕ Bool := ∅
  /-- All buffers there have been. A reader keeps its buffer when the entry is removed. -/
  buffers : List TerminalOutputProcessor := []
deriving DecidableEq

namespace ActionRegistry

variable (r : ActionRegistry) (executionId : ℕ)

def register (info : RunningActionInfo) : ActionRegistry :=
  { r with running := r.running.insert info.executionId info }

/-! `unregister` takes the locks of the four maps one after the other. -/

def unregisterRunning : ActionRegistry := { r with running := r.running.erase executionId }

def unregisterPhase : ActionRegistry := { r with runPhases := r.runPhases.erase executionId }

def unregisterBuffer : ActionRegistry := { r with outputBuffers := r.outputBuffers.erase executionId }

/-- Dropping the sender signals the background task to stop. -/
def unregisterSender : ActionRegistry := { r with cancelSenders := r.cancelSenders.erase executionId }

def setRunPhase (phase : RunPhase) : ActionRegistry := { r with runPhases := r.runPhases.insert executionId phase }

/-- The buffer of the execution, or the one that `register_output_buffer` makes for it. -/
def outputBuffer : ℕ := (r.outputBuffers.lookup executionId).getD r.buffers.length

def registerOutputBuffer : ActionRegistry :=
  match r.outputBuffers.lookup executionId with
  | some _ => r
  | none => { r with
      outputBuffers := r.outputBuffers.insert executionId r.buffers.length
      buffers := r.buffers ++ [{}] }

/-- The second half of `append_output_chunk`, in the lock of the buffer. -/
def processChunk (buffer : ℕ) (chunk : Text) : ActionRegistry :=
  { r with buffers := r.buffers.modify buffer (·.processChunk chunk) }

/-- The second half of `get_output_lines`, in the lock of the buffer. -/
def snapshotLines (buffer : ℕ) : List Text := (r.buffers[buffer]?.map (·.snapshotLines)).getD []

def storeCancelSender : ActionRegistry := { r with cancelSenders := r.cancelSenders.insert executionId false }

end ActionRegistry

/-- What a step of a thread does to the registry, for one execution. -/
inductive RegistryCall where
  /-- Nothing, or it only reads. -/
  | none
  | unregisterRunning
  | unregisterPhase
  | unregisterBuffer
  | unregisterSender
  | setRunPhase (phase : RunPhase)
  | registerOutputBuffer
  | processChunk (buffer : ℕ) (chunk : Text)
  | storeCancelSender
deriving DecidableEq, Repr

def ActionRegistry.apply (r : ActionRegistry) (executionId : ℕ) : RegistryCall → ActionRegistry
  | .none => r
  | .unregisterRunning => r.unregisterRunning executionId
  | .unregisterPhase => r.unregisterPhase executionId
  | .unregisterBuffer => r.unregisterBuffer executionId
  | .unregisterSender => r.unregisterSender executionId
  | .setRunPhase phase => r.setRunPhase executionId phase
  | .registerOutputBuffer => r.registerOutputBuffer executionId
  | .processChunk buffer chunk => r.processChunk buffer chunk
  | .storeCancelSender => r.storeCancelSender executionId

/-! ## The threads of an execution -/

/-- How far the completion thread is with its `StatusChanged` event. -/
inductive StatusPhase where
  | waiting
  | changed
  | runningRemoved
  | phaseRemoved
  | bufferRemoved
  | finished
deriving DecidableEq, Repr

def StatusPhase.rank : StatusPhase → ℕ
  | .waiting => 0
  | .changed => 1
  | .runningRemoved => 2
  | .phaseRemoved => 3
  | .bufferRemoved => 4
  | .finished => 5

/-- A reader of the output, which emits one `Output` event after another. -/
inductive OutputReader where
  | reading
  /-- It has a reference to the buffer, in `append_output_chunk`. -/
  | appending (buffer : ℕ) (chunk : Text)
  | finished
deriving DecidableEq, Repr

/-- How far `run_branch_action_impl` is, from the end of `execute` on. -/
inductive WiringPhase where
  | executed
  | bufferRegistered
  /-- `AutodetectPending` is set. -/
  | phaseSet
  | senderStored
  | finished
deriving DecidableEq, Repr

/-- The background task of the run detection. -/
inductive Detector where
  | unspawned
  /-- The regex matcher: spawned, `Building` set, waiting, and reading from a buffer. -/
  | matcher (pattern : Text) (hasEndpointCapture : Bool)
  | building (pattern : Text) (hasEndpointCapture : Bool)
  | matching (pattern : Text) (hasEndpointCapture : Bool) (lastCheckedIndex : ℕ)
  | matcherReading (pattern : Text) (hasEndpointCapture : Bool) (lastCheckedIndex buffer : ℕ)
  /-- The poller: waiting with the rest of its schedule, reading from a buffer, and waiting for the AI. -/
  | polling (schedule : List ℕ)
  | pollerReading (schedule : List ℕ) (buffer : ℕ)
  | prompting (schedule : List ℕ) (cleanLines : List Text)
  /-- Either of them, about to set its last phase. -/
  | detected (phase : RunPhase)
  | stopped
deriving DecidableEq, Repr

/-- An execution of an action, with its threads. -/
structure ActionRun where
  actionType : ActionType
  runDetectionMode : Option RunDetectionMode
  status : StatusPhase := .waiting
  readers : List OutputReader
  wiring : WiringPhase := .executed
  detector : Detector := .unspawned
deriving DecidableEq, Repr

/-- `AutodetectResponse`, as the AI gives it. -/
structure AutodetectResponse where
  status : Text
  regex : Option Text
  hasEndpointCapture : Bool
deriving DecidableEq, Repr

inductive ThreadStep where
  /-- The process exits, and the completion thread emits the status. -/
  | exit (status : ActionStatus)
  /-- The completion thread goes on with `unregister`. -/
  | unregister
  /-- A reader emits an `Output` event, appends the chunk, or reaches the end of the output. -/
  | output (i : ℕ) (chunk : Text)
  | append (i : ℕ)
  | endOfOutput (i : ℕ)
  | wire
  /-- The detector goes on, where it neither waits nor prompts; its timer fires; its channel is closed; the AI answers,
  if it does with JSON. -/
  | detect
  | tick
  | cancel
  | respond (response : Option AutodetectResponse)
deriving DecidableEq, Repr

/-- `normalize_for_prompt`. -/
def normalizeForPrompt (raw : Text) : Text :=
  (['\n'].intercalate (({} : TerminalOutputProcessor).processChunk raw).finish).filterMap fun ch =>
    if ch = '\n' then some '\n' else if ch = '\t' then some ' ' else if isPromptHostileControl ch then none else some ch

/-- `build_poll_schedule`. -/
def buildPollSchedule : List ℕ := List.replicate 5 30 ++ List.replicate 9 120

section

/-! `regexNew` is `Regex::new`: what a pattern captures in a line, if it is a regex; the result of a match is its
capture group `endpoint`. -/

variable (regexNew : Text → Option (Text → Option (Option Text)))

/-- The matcher, once it has the lines of the buffer. -/
def checkLines (pattern : Text) (hasEndpointCapture : Bool) (lastCheckedIndex : ℕ) (lines : List Text) : Detector :=
  let startIndex := lastCheckedIndex - 1
  if lines.length ≤ startIndex then .matching pattern hasEndpointCapture lastCheckedIndex
  else
    match (lines.drop startIndex).findSome? fun line => (regexNew pattern).bind fun re => re (normalizeForPrompt line) with
    | some endpoint => .detected (.running (if hasEndpointCapture then endpoint else none))
    | none => .matching pattern hasEndpointCapture lines.length

/-- The poller, at the end of the body of its loop. After the schedule it gives up. -/
def pollAgain : List ℕ → Detector
  | [] => .detected .noDetection
  | schedule => .polling schedule

/-- The poller, once it has the lines of the buffer. -/
def promptLines (schedule : List ℕ) (lines : List Text) : Detector :=
  let tail := lines.drop (lines.length - 200)
  if tail = [] then pollAgain schedule else .prompting schedule (tail.map normalizeForPrompt)

/-- The poller, once the AI has answered. -/
def checkResponse (schedule : List ℕ) (cleanLines : List Text) : Option AutodetectResponse → Detector
  | none => pollAgain schedule
  | some parsed =>
    if parsed.status ≠ ['r', 'u', 'n', 'n', 'i', 'n', 'g'] then pollAgain schedule
    else
      match parsed.regex.filter (· ≠ []) with
      | none => pollAgain schedule
      | some pattern =>
        match cleanLines.findSome? fun line => (regexNew pattern).bind fun re => re line with
        | none => pollAgain schedule
        | some endpoint => .detected (.running (if parsed.hasEndpointCapture then endpoint else none))

namespace ActionRun

variable (run : ActionRun) (r : ActionRegistry) (executionId : ℕ)

/-- `unregister`, for a status that is not `running`. -/
def unregister : Option (ActionRun × RegistryCall) :=
  match run.status with
  | .changed => some ({ run with status := .runningRemoved }, .unregisterRunning)
  | .runningRemoved => some ({ run with status := .phaseRemoved }, .unregisterPhase)
  | .phaseRemoved => some ({ run with status := .bufferRemoved }, .unregisterBuffer)
  | .bufferRemoved => some ({ run with status := .finished }, .unregisterSender)
  | .waiting | .finished => none

def wire : Option (ActionRun × RegistryCall) :=
  match run.wiring with
  | .executed =>
    if run.actionType = .run then some ({ run with wiring := .bufferRegistered }, .registerOutputBuffer)
    else some ({ run with wiring := .finished }, .none)
  | .bufferRegistered =>
    match run.runDetectionMode with
    | some (.endpointRegex _) | some (.runningRegex _) => some ({ run with wiring := .senderStored }, .storeCancelSender)
    | some .noDetection => some ({ run with wiring := .finished }, .setRunPhase .noDetection)
    | some .autodetect | none => some ({ run with wiring := .phaseSet }, .setRunPhase .autodetectPending)
  | .phaseSet => some ({ run with wiring := .senderStored }, .storeCancelSender)
  | .senderStored =>
    let detector : Detector :=
      match run.runDetectionMode with
      | some (.endpointRegex pattern) => .matcher pattern true
      | some (.runningRegex pattern) => .matcher pattern false
      | some .noDetection | some .autodetect | none => .polling buildPollSchedule
    some ({ run with wiring := .finished, detector }, .none)
  | .finished => none

def detect : Option (ActionRun × RegistryCall) :=
  match run.detector with
  | .matcher pattern hasEndpointCapture =>
    match regexNew pattern with
    | none => some ({ run with detector := .stopped }, .setRunPhase .noDetection)
    | some _ => some ({ run with detector := .building pattern hasEndpointCapture }, .setRunPhase .building)
  | .building pattern hasEndpointCapture =>
    some ({ run with detector := .matching pattern hasEndpointCapture 0 }, .registerOutputBuffer)
  | .matcherReading pattern hasEndpointCapture lastCheckedIndex buffer =>
    let lines := r.snapshotLines buffer
    some ({ run with detector := checkLines regexNew pattern hasEndpointCapture lastCheckedIndex lines }, .none)
  | .pollerReading schedule buffer =>
    some ({ run with detector := promptLines schedule (r.snapshotLines buffer) }, .none)
  | .detected phase => some ({ run with detector := .stopped }, .setRunPhase phase)
  | .unspawned | .matching .. | .polling _ | .prompting .. | .stopped => none

/-- The timer of the detector fires, and it looks up the buffer. -/
def tick : Option (ActionRun × RegistryCall) :=
  match run.detector with
  | .matching pattern hasEndpointCapture lastCheckedIndex =>
    match r.outputBuffers.lookup executionId with
    | none => some (run, .none)
    | some buffer =>
      some ({ run with detector := .matcherReading pattern hasEndpointCapture lastCheckedIndex buffer }, .none)
  | .polling (_ :: schedule) =>
    match r.outputBuffers.lookup executionId with
    | none => some ({ run with detector := pollAgain schedule }, .none)
    | some buffer => some ({ run with detector := .pollerReading schedule buffer }, .none)
  | _ => none

/-- The detector waits for its timer or its channel. -/
def Waiting (run : ActionRun) : Prop :=
  match run.detector with
  | .matching .. | .polling _ => True
  | _ => False

instance : Decidable run.Waiting := by
  unfold Waiting
  split <;> infer_instance

def next : ThreadStep → Option (ActionRun × RegistryCall)
  | .exit status =>
    if run.status = .waiting ∧ status ≠ .running then some ({ run with status := .changed }, .none) else none
  | .unregister => run.unregister
  | .output i chunk =>
    if run.readers[i]? = some .reading then
      some ({ run with readers := run.readers.set i (.appending (r.outputBuffer executionId) chunk) },
        .registerOutputBuffer)
    else none
  | .append i =>
    match run.readers[i]? with
    | some (.appending buffer chunk) =>
      some ({ run with readers := run.readers.set i .reading }, .processChunk buffer chunk)
    | _ => none
  | .endOfOutput i =>
    if run.readers[i]? = some .reading then some ({ run with readers := run.readers.set i .finished }, .none) else none
  | .wire => run.wire
  | .detect => run.detect regexNew r
  | .tick => run.tick r executionId
  | .cancel =>
    -- the receiver is created before the sender is stored, and the task is spawned after that
    if run.Waiting ∧ r.cancelSenders.lookup executionId = none then some ({ run with detector := .stopped }, .none)
    else none
  | .respond response =>
    match run.detector with
    | .prompting schedule cleanLines =>
      some ({ run with detector := checkResponse regexNew schedule cleanLines response }, .none)
    | _ => none

end ActionRun

/-- The registry with all executions. -/
structure ActionSystem where
  registry : ActionRegistry := {}
  runs : List ActionRun := []
deriving DecidableEq

inductive SystemStep where
  /-- `execute` starts a process with the given number of output streams, and emits `Started`. -/
  | start (branchId actionId actionName : Text) (actionType : ActionType) (runDetectionMode : Option RunDetectionMode)
      (streams : ℕ) (startedAt : ℤ)
  | thread (executionId : ℕ) (threadStep : ThreadStep)
deriving DecidableEq, Repr

namespace ActionSystem

def step (s : ActionSystem) : SystemStep → Option ActionSystem
  | .start branchId actionId actionName actionType runDetectionMode streams startedAt =>
    some {
      registry := s.registry.register ⟨s.runs.length, branchId, actionId, actionName, actionType, startedAt⟩
      runs := s.runs ++ [{ actionType, runDetectionMode, readers := List.replicate streams .reading }] }
  | .thread executionId threadStep =>
    s.runs[executionId]?.bind fun run =>
      (run.next regexNew s.registry executionId threadStep).map fun next =>
        { registry := s.registry.apply executionId next.2, runs := s.runs.set executionId next.1 }

end ActionSystem

end

/-! ## What is left behind -/

/-- Nothing is left to do: the process has exited, all threads are at their end, and the detector is too, or it waits
on an open channel. -/
structure ActionRun.Settled (run : ActionRun) (r : ActionRegistry) (executionId : ℕ) : Prop where
  status : run.status = .finished
  readers : ∀ reader ∈ run.readers, reader = .finished
  wiring : run.wiring = .finished
  detector : run.detector = .unspawned ∨ run.detector = .stopped ∨
    run.Waiting ∧ (r.cancelSenders.lookup executionId).isSome

/-- The execution is in no map, and its detector has stopped. -/
structure ActionRun.Clean (run : ActionRun) (r : ActionRegistry) (executionId : ℕ) : Prop where
  running : r.running.lookup executionId = none
  runPhases : r.runPhases.lookup executionId = none
  outputBuffers : r.outputBuffers.lookup executionId = none
  cancelSenders : r.cancelSenders.lookup executionId = none
  detector : run.detector = .unspawned ∨ run.detector = .stopped

/-- A map is only written to before `unregister` has passed it. -/
def RegistryCall.Timely (status : StatusPhase) : RegistryCall → Prop
  | .setRunPhase _ => status.rank < StatusPhase.phaseRemoved.rank
  | .registerOutputBuffer => status.rank < StatusPhase.bufferRemoved.rank
  | .storeCancelSender => status.rank < StatusPhase.finished.rank
  | .none | .unregisterRunning | .unregisterPhase | .unregisterBuffer | .unregisterSender | .processChunk .. => True

section

variable (regexNew : Text → Option (Text → Option (Option Text))) (executionId : ℕ)

/-- The condition on a step of the execution. -/
def ActionSystem.Timely (s : ActionSystem) : SystemStep → Prop
  | .start .. => True
  | .thread id threadStep => id = executionId → ∀ run ∈ s.runs[id]?,
      ∀ next ∈ run.next regexNew s.registry id threadStep, next.2.Timely run.status

end

/-- No map has an entry that `unregister` has removed. -/
@[mk_iff]
structure NothingLate (r : ActionRegistry) (executionId : ℕ) (status : StatusPhase) : Prop where
  runPhases : StatusPhase.phaseRemoved.rank ≤ status.rank → r.runPhases.lookup executionId = none
  outputBuffers : StatusPhase.bufferRemoved.rank ≤ status.rank → r.outputBuffers.lookup executionId = none
  cancelSenders : StatusPhase.finished.rank ≤ status.rank → r.cancelSenders.lookup executionId = none

/-! ## One call -/

/-- The status that `unregister` leads to next. -/
def StatusPhase.next : StatusPhase → Option StatusPhase
  | .waiting => some .changed
  | .changed => some .runningRemoved
  | .runningRemoved => some .phaseRemoved
  | .phaseRemoved => some .bufferRemoved
  | .bufferRemoved => some .finished
  | .finished => none

/-- The call that leads to a status. -/
def StatusPhase.call : StatusPhase → RegistryCall
  | .runningRemoved => .unregisterRunning
  | .phaseRemoved => .unregisterPhase
  | .bufferRemoved => .unregisterBuffer
  | .finished => .unregisterSender
  | .waiting | .changed => .none

/-- A call that removes no entry. -/
def RegistryCall.Keeps : RegistryCall → Prop
  | .unregisterRunning | .unregisterPhase | .unregisterBuffer | .unregisterSender => False
  | .none | .setRunPhase _ | .registerOutputBuffer | .processChunk .. | .storeCancelSender => True

variable {threadStep : ThreadStep} {status : StatusPhase}

section

variable {regexNew : Text → Option (Text → Option (Option Text))} {r : ActionRegistry} {run run' : ActionRun}
  {call : RegistryCall} {executionId id : ℕ}

theorem wire_keeps (h : run.wire = some (run', call)) : run'.status = run.status ∧ call.Keeps := by
  rw [ActionRun.wire] at h
  split at h
  next =>
    split at h <;> cases h <;> exact ⟨rfl, trivial⟩
  next =>
    split at h <;> cases h <;> exact ⟨rfl, trivial⟩
  next =>
    cases h
    exact ⟨rfl, trivial⟩
  next =>
    cases h
    exact ⟨rfl, trivial⟩
  next => cases h

theorem detect_keeps (h : run.detect regexNew r = some (run', call)) : run'.status = run.status ∧ call.Keeps := by
  rw [ActionRun.detect] at h
  split at h
  next =>
    split at h <;> cases h <;> exact ⟨rfl, trivial⟩
  all_goals cases h
  all_goals exact ⟨rfl, trivial⟩

theorem tick_keeps (h : run.tick r executionId = some (run', call)) : run'.status = run.status ∧ call.Keeps := by
  rw [ActionRun.tick] at h
  split at h
  next =>
    split at h <;> cases h <;> exact ⟨rfl, trivial⟩
  next =>
    split at h <;> cases h <;> exact ⟨rfl, trivial⟩
  next => cases h

theorem unregister_next (h : run.unregister = some (run', call)) :
    run.status.next = some run'.status ∧ call = run'.status.call := by
  rw [ActionRun.unregister] at h
  split at h <;> cases h <;> rename_i hstatus <;> rw [hstatus] <;> exact ⟨rfl, rfl⟩

/-- A step either goes on with the status, or keeps all entries. -/
theorem next_cases (h : run.next regexNew r executionId threadStep = some (run', call)) :
    (run.status.next = some run'.status ∧ call = run'.status.call) ∨ (run'.status = run.status ∧ call.Keeps) := by
  cases threadStep with
  | exit status =>
    obtain ⟨hguard, h⟩ := Option.ite_none_right_eq_some.mp h
    cases h
    rw [hguard.1]
    exact Or.inl ⟨rfl, rfl⟩
  | unregister => exact Or.inl (unregister_next h)
  | wire => exact Or.inr (wire_keeps h)
  | detect => exact Or.inr (detect_keeps h)
  | tick => exact Or.inr (tick_keeps h)
  | output | endOfOutput | cancel =>
    obtain ⟨-, h⟩ := Option.ite_none_right_eq_some.mp h
    cases h
    exact Or.inr ⟨rfl, trivial⟩
  | append i | respond response =>
    rw [ActionRun.next] at h
    split at h
    · cases h
      exact Or.inr ⟨rfl, trivial⟩
    · cases h

/-- The entries of another execution stay. -/
theorem apply_of_ne (h : executionId ≠ id) :
    (r.apply id call).running.lookup executionId = r.running.lookup executionId ∧
      (r.apply id call).runPhases.lookup executionId = r.runPhases.lookup executionId ∧
      (r.apply id call).outputBuffers.lookup executionId = r.outputBuffers.lookup executionId ∧
      (r.apply id call).cancelSenders.lookup executionId = r.cancelSenders.lookup executionId := by
  cases call with
  | none | processChunk buffer chunk => exact ⟨rfl, rfl, rfl, rfl⟩
  | unregisterRunning => exact ⟨AList.lookup_erase_ne h, rfl, rfl, rfl⟩
  | unregisterPhase => exact ⟨rfl, AList.lookup_erase_ne h, rfl, rfl⟩
  | unregisterBuffer => exact ⟨rfl, rfl, AList.lookup_erase_ne h, rfl⟩
  | unregisterSender => exact ⟨rfl, rfl, rfl, AList.lookup_erase_ne h⟩
  | setRunPhase phase => exact ⟨rfl, AList.lookup_insert_ne h, rfl, rfl⟩
  | storeCancelSender => exact ⟨rfl, rfl, rfl, AList.lookup_insert_ne h⟩
  | registerOutputBuffer =>
    rw [ActionRegistry.apply, ActionRegistry.registerOutputBuffer]
    split
    next => exact ⟨rfl, rfl, rfl, rfl⟩
    next => exact ⟨rfl, rfl, AList.lookup_insert_ne h, rfl⟩

theorem nothingLate_congr (r r' : ActionRegistry)
    (hphases : r'.runPhases.lookup executionId = r.runPhases.lookup executionId)
    (hbuffers : r'.outputBuffers.lookup executionId = r.outputBuffers.lookup executionId)
    (hsenders : r'.cancelSenders.lookup executionId = r.cancelSenders.lookup executionId) :
    NothingLate r' executionId status ↔ NothingLate r executionId status := by
  rw [nothingLate_iff, nothingLate_iff, hphases, hbuffers, hsenders]

/-- Only the removal from `running` leads to where that has been done. -/
theorem running_passed {status' : StatusPhase} (h : status.next = some status')
    (hcall : status'.call ≠ .unregisterRunning) (hrank : StatusPhase.runningRemoved.rank ≤ status'.rank) :
    StatusPhase.runningRemoved.rank ≤ status.rank := by
  cases status <;> cases h
  case waiting => exact absurd hrank (by decide)
  case changed => exact absurd rfl hcall
  all_goals decide

theorem apply_running : (r.apply executionId call).running.lookup executionId = none ∨
    call ≠ .unregisterRunning ∧ (r.apply executionId call).running = r.running := by
  cases call with
  | unregisterRunning => exact Or.inl (AList.lookup_erase _ _)
  | registerOutputBuffer =>
    refine Or.inr ⟨fun h => (by cases h), ?_⟩
    rw [ActionRegistry.apply, ActionRegistry.registerOutputBuffer]
    split <;> rfl
  | _ => exact Or.inr ⟨fun h => (by cases h), rfl⟩

/-- `unregister` leaves nothing in the map that it passes. -/
theorem nothingLate_call {status' : StatusPhase} (h : status.next = some status') :
    NothingLate (r.apply executionId status'.call) executionId status' ↔
      NothingLate r executionId status ∧ status'.call.Timely status := by
  have hcall : status'.call.Timely status := by
    cases status' <;> exact trivial
  rw [nothingLate_iff, nothingLate_iff]
  refine Iff.trans ?_ (and_iff_left hcall).symm
  cases status <;> cases h <;>
    simp [StatusPhase.rank, StatusPhase.call, ActionRegistry.apply, ActionRegistry.unregisterPhase,
      ActionRegistry.unregisterRunning, ActionRegistry.unregisterBuffer, ActionRegistry.unregisterSender]

/-- A map that is written to has no entry too many exactly if `unregister` has not passed it. -/
theorem written_iff {β : Type} {m m' : Table ℕ β} {limit rank : ℕ} (h : (m'.lookup executionId).isSome) :
    (limit ≤ rank → m'.lookup executionId = none) ↔ (limit ≤ rank → m.lookup executionId = none) ∧ rank < limit := by
  constructor
  · intro hnone
    have hrank : rank < limit := by
      by_contra hle
      rw [hnone (Nat.le_of_not_lt hle)] at h
      cases h
    exact ⟨fun hle => absurd hrank (Nat.not_lt.mpr hle), hrank⟩
  · rintro ⟨-, hrank⟩ hle
    exact absurd hrank (Nat.not_lt.mpr hle)

/-- A call keeps the maps clean exactly if it writes to none that `unregister` has passed. -/
theorem nothingLate_keeps (h : call.Keeps) : NothingLate (r.apply executionId call) executionId status ↔
      NothingLate r executionId status ∧ call.Timely status := by
  cases call with
  | unregisterRunning | unregisterPhase | unregisterBuffer | unregisterSender => exact absurd h id
  | none => exact (and_iff_left (b := True) trivial).symm
  | processChunk buffer chunk =>
    have htimely : RegistryCall.Timely status (.processChunk buffer chunk) := trivial
    exact (nothingLate_congr r (r.processChunk buffer chunk) rfl rfl rfl).trans (and_iff_left htimely).symm
  -- a call that writes leaves an entry, which `unregister` must still have before it
  | setRunPhase phase =>
    have hentry : ((r.setRunPhase executionId phase).runPhases.lookup executionId).isSome :=
      Option.isSome_of_eq_some (AList.lookup_insert _)
    rw [nothingLate_iff, nothingLate_iff, RegistryCall.Timely, ActionRegistry.apply, written_iff (m := r.runPhases) hentry]
    exact and_right_comm
  | storeCancelSender =>
    have hentry : ((r.storeCancelSender executionId).cancelSenders.lookup executionId).isSome :=
      Option.isSome_of_eq_some (AList.lookup_insert _)
    rw [nothingLate_iff, nothingLate_iff, RegistryCall.Timely, ActionRegistry.apply,
      written_iff (m := r.cancelSenders) hentry, and_assoc, and_assoc]
    rfl
  | registerOutputBuffer =>
    have hentry : ((r.registerOutputBuffer executionId).outputBuffers.lookup executionId).isSome := by
      rw [ActionRegistry.registerOutputBuffer]
      split
      next buffer hbuffer => exact Option.isSome_of_eq_some hbuffer
      next => exact Option.isSome_of_eq_some (AList.lookup_insert _)
    have hothers : (r.registerOutputBuffer executionId).runPhases = r.runPhases ∧
        (r.registerOutputBuffer executionId).cancelSenders = r.cancelSenders := by
      rw [ActionRegistry.registerOutputBuffer]
      split <;> exact ⟨rfl, rfl⟩
    rw [nothingLate_iff, nothingLate_iff, RegistryCall.Timely, ActionRegistry.apply,
      written_iff (m := r.outputBuffers) hentry, hothers.1, hothers.2, and_assoc, and_assoc, and_assoc]
    exact and_congr_right fun _ => and_congr_right fun _ => and_comm

/-- What a step of the execution leaves behind. -/
theorem nothingLate_next (h : run.next regexNew r executionId threadStep = some (run', call)) :
    NothingLate (r.apply executionId call) executionId run'.status ↔
      NothingLate r executionId run.status ∧ call.Timely run.status := by
  rcases next_cases h with ⟨hnext, rfl⟩ | ⟨hstatus, hkeeps⟩
  · exact nothingLate_call hnext
  · rw [hstatus]
    exact nothingLate_keeps hkeeps

end

namespace ActionSystem

variable {regexNew : Text → Option (Text → Option (Option Text))} {s t : ActionSystem} {executionId : ℕ}

/-! ## Runs -/

/-- No map has an entry of the execution that `unregister` has removed. -/
def NothingLate (s : ActionSystem) (executionId : ℕ) : Prop :=
  ∀ run ∈ s.runs[executionId]?, Actions.NothingLate s.registry executionId run.status

/-- An execution that `unregister` has begun to remove is not in `running`. -/
def NotRunning (s : ActionSystem) (executionId : ℕ) : Prop :=
  ∀ run ∈ s.runs[executionId]?, StatusPhase.runningRemoved.rank ≤ run.status.rank →
    s.registry.running.lookup executionId = none

/-- A step of an execution changes nothing of another one. -/
theorem thread_of_ne {id : ℕ} (hne : executionId ≠ id)
    (hstep : step regexNew s (.thread id threadStep) = some t) :
    t.runs[executionId]? = s.runs[executionId]? ∧
      t.registry.running.lookup executionId = s.registry.running.lookup executionId ∧
      t.registry.runPhases.lookup executionId = s.registry.runPhases.lookup executionId ∧
      t.registry.outputBuffers.lookup executionId = s.registry.outputBuffers.lookup executionId ∧
      t.registry.cancelSenders.lookup executionId = s.registry.cancelSenders.lookup executionId := by
  obtain ⟨run, hrun, hnext⟩ := Option.bind_eq_some_iff.mp hstep
  obtain ⟨next, -, rfl⟩ := Option.map_eq_some_iff.mp hnext
  exact ⟨List.getElem?_set_ne (Ne.symm hne), apply_of_ne hne⟩

/-- A step of the execution is a step of one of its threads. -/
theorem thread_self (hstep : step regexNew s (.thread executionId threadStep) = some t) :
    ∃ run run' call, s.runs[executionId]? = some run ∧ t.runs[executionId]? = some run' ∧
      run.next regexNew s.registry executionId threadStep = some (run', call) ∧
      t.registry = s.registry.apply executionId call := by
  obtain ⟨run, hrun, hnext⟩ := Option.bind_eq_some_iff.mp hstep
  obtain ⟨⟨run', call⟩, hcall, rfl⟩ := Option.map_eq_some_iff.mp hnext
  obtain ⟨hi, -⟩ := List.getElem?_eq_some_iff.mp hrun
  exact ⟨run, run', call, hrun, List.getElem?_set_self hi, hcall, rfl⟩

/-- A step leaves something behind exactly if it is late. -/
theorem nothingLate_step (event : SystemStep) (hstep : step regexNew s event = some t) :
    t.NothingLate executionId ↔ s.NothingLate executionId ∧ s.Timely regexNew executionId event := by
  cases event with
  | start branchId actionId actionName actionType runDetectionMode streams startedAt =>
    cases hstep
    refine Iff.trans ⟨fun hlate run hrun => ?_, fun hlate run hrun => ?_⟩ (and_iff_left (b := True) trivial).symm
    · have hlt := (List.getElem?_eq_some_iff.mp hrun).1
      exact (nothingLate_congr s.registry (s.registry.register _) rfl rfl rfl).mp (hlate run ((List.getElem?_append_left hlt).trans hrun))
    · rcases of_getElem?_concat hrun with hrun | ⟨-, rfl⟩
      · exact (nothingLate_congr s.registry (s.registry.register _) rfl rfl rfl).mpr (hlate run hrun)
      · -- the new execution waits for its process
        exact ⟨fun hrank => absurd hrank (Nat.not_succ_le_zero _), fun hrank => absurd hrank (Nat.not_succ_le_zero _),
          fun hrank => absurd hrank (Nat.not_succ_le_zero _)⟩
  | thread id threadStep =>
    by_cases hid : executionId = id
    · subst hid
      obtain ⟨run, run', call, hrun, hrun', hnext, hregistry⟩ := thread_self hstep
      rw [NothingLate, NothingLate, hrun, hrun', hregistry]
      simp only [Option.mem_some_iff, forall_eq', nothingLate_next hnext, Timely, hrun, hnext, forall_const]
    · obtain ⟨hruns, -, hphases, hbuffers, hsenders⟩ := thread_of_ne hid hstep
      have htimely : s.Timely regexNew executionId (.thread id threadStep) := fun heq => absurd heq.symm hid
      rw [and_iff_left htimely, NothingLate, NothingLate, hruns]
      exact forall₂_congr fun run _ => nothingLate_congr _ _ hphases hbuffers hsenders

theorem notRunning_step (h : s.NotRunning executionId) (event : SystemStep) (hstep : step regexNew s event = some t) :
    t.NotRunning executionId := by
  intro run hrun hrank
  cases event with
  | start branchId actionId actionName actionType runDetectionMode streams startedAt =>
    cases hstep
    rcases of_getElem?_concat hrun with hrun | ⟨-, rfl⟩
    · have hne : executionId ≠ s.runs.length := Nat.ne_of_lt (List.getElem?_eq_some_iff.mp hrun).1
      exact (AList.lookup_insert_ne hne).trans (h run hrun hrank)
    · exact absurd hrank (Nat.not_succ_le_zero _)
  | thread id threadStep =>
    by_cases hid : executionId = id
    · subst hid
      obtain ⟨run₀, run', call, hrun₀, hrun', hnext, hregistry⟩ := thread_self hstep
      rw [hrun', Option.mem_some_iff] at hrun
      subst hrun
      rw [hregistry]
      rcases apply_running (r := s.registry) with hnone | ⟨hcall, hsame⟩
      · exact hnone
      · rw [hsame]
        refine h run₀ hrun₀ ?_
        rcases next_cases hnext with ⟨hadvance, rfl⟩ | ⟨hstatus, -⟩
        · exact running_passed hadvance hcall hrank
        · rwa [hstatus] at hrank
    · obtain ⟨hruns, hrunning, -⟩ := thread_of_ne hid hstep
      rw [hrunning]
      exact h run (hruns ▸ hrun) hrank

/-- Once nothing is left to do for an execution, it is in no map and its detector has stopped exactly if every map was
only written to before `unregister` had passed it. -/
theorem run_clean_iff {events : List SystemStep} (hrun : run (step regexNew) {} events = some s) {run : ActionRun}
    (h : s.runs[executionId]? = some run) (hsettled : run.Settled s.registry executionId) :
    run.Clean s.registry executionId ↔ Along (step regexNew) (Timely regexNew executionId) {} events := by
  have hempty (P : ActionRun → Prop) : ∀ run ∈ ({} : ActionSystem).runs[executionId]?, P run := fun run hrun => by cases hrun
  have hlate : s.NothingLate executionId ↔ Along (step regexNew) (Timely regexNew executionId) {} events := by
    rw [run_iff_along (fun _ _ _ _ _ => trivial) (fun _ event _ _ hstep => nothingLate_step event hstep)
      trivial hrun]
    exact and_iff_right (hempty _)
  rw [← hlate]
  have hstatus : ∀ limit : StatusPhase, limit.rank ≤ run.status.rank := by
    intro limit
    rw [hsettled.status]
    cases limit <;> decide
  constructor
  · intro hclean run' hrun'
    rw [h, Option.mem_some_iff] at hrun'
    subst hrun'
    exact ⟨fun _ => hclean.runPhases, fun _ => hclean.outputBuffers, fun _ => hclean.cancelSenders⟩
  · intro hnothing
    obtain ⟨hphases, hbuffers, hsenders⟩ := hnothing run h
    have hstep (s : ActionSystem) (event : SystemStep) (t : ActionSystem) (h : s.NotRunning executionId)
        (hstep : step regexNew s event = some t) : t.NotRunning executionId := notRunning_step h event hstep
    have hinitial : NotRunning {} executionId := fun run hrun => by cases hrun
    have hrunning := run_invariant hstep hinitial hrun
    refine ⟨hrunning run h (hstatus _), hphases (hstatus _), hbuffers (hstatus _), hsenders (hstatus _), ?_⟩
    rcases hsettled.detector with hunspawned | hstopped | ⟨-, hopen⟩
    · exact Or.inl hunspawned
    · exact Or.inr hstopped
    · rw [hsenders (hstatus _)] at hopen
      cases hopen

instance (status : StatusPhase) : (call : RegistryCall) → Decidable (call.Timely status)
  | .setRunPhase _ => inferInstanceAs (Decidable (status.rank < StatusPhase.phaseRemoved.rank))
  | .registerOutputBuffer => inferInstanceAs (Decidable (status.rank < StatusPhase.bufferRemoved.rank))
  | .storeCancelSender => inferInstanceAs (Decidable (status.rank < StatusPhase.finished.rank))
  | .none | .unregisterRunning | .unregisterPhase | .unregisterBuffer | .unregisterSender | .processChunk .. =>
    .isTrue trivial

instance (s : ActionSystem) : (event : SystemStep) → Decidable (s.Timely regexNew executionId event)
  | .start .. => .isTrue trivial
  | .thread id threadStep => inferInstanceAs (Decidable (id = executionId → ∀ run ∈ s.runs[id]?,
      ∀ next ∈ run.next regexNew s.registry id threadStep, next.2.Timely run.status))

instance (run : ActionRun) (r : ActionRegistry) (executionId : ℕ) : Decidable (run.Settled r executionId) :=
  decidable_of_iff (run.status = .finished ∧ (∀ reader ∈ run.readers, reader = .finished) ∧ run.wiring = .finished ∧
      (run.detector = .unspawned ∨ run.detector = .stopped ∨
        run.Waiting ∧ (r.cancelSenders.lookup executionId).isSome))
    ⟨fun h => ⟨h.1, h.2.1, h.2.2.1, h.2.2.2⟩, fun h => ⟨h.status, h.readers, h.wiring, h.detector⟩⟩

/-- A run action with one stream, whose detection has the given mode. -/
def startWith (mode : RunDetectionMode) : SystemStep := .start ['b'] ['a'] ['n'] .run (some mode) 1 0

/-- The process exits, its output ends, and `unregister` runs. -/
def endOfProcess : List SystemStep :=
  [.thread 0 (.exit .completed), .thread 0 (.endOfOutput 0), .thread 0 .unregister, .thread 0 .unregister,
    .thread 0 .unregister, .thread 0 .unregister]

/-- A regex that matches no line. -/
def matchNothing (_ : Text) : Option (Text → Option (Option Text)) := some fun _ => none

/-- A command ends before its detection is wired: its phase and its buffer stay, or its matcher polls on and its sender
stays; and an output event that comes after the status leaves a buffer. -/
theorem run_leaves_entries :
    (∃ s, run (step matchNothing) {} (startWith .noDetection :: endOfProcess ++ [.thread 0 .wire, .thread 0 .wire]) = some s ∧
      ∃ run ∈ s.runs[0]?, run.Settled s.registry 0 ∧ s.registry.runPhases.lookup 0 = some .noDetection ∧
        ¬ run.Clean s.registry 0) ∧
    (∃ s, run (step matchNothing) {} (startWith (.runningRegex ['r']) :: endOfProcess ++
          [.thread 0 .wire, .thread 0 .wire, .thread 0 .wire, .thread 0 .detect, .thread 0 .detect]) = some s ∧
      ∃ run ∈ s.runs[0]?, run.Settled s.registry 0 ∧ s.registry.cancelSenders.lookup 0 = some false ∧
        run.detector = .matching ['r'] false 0 ∧ ¬ run.Clean s.registry 0) ∧
    ∃ s, run (step matchNothing) {} [startWith .noDetection, .thread 0 .wire, .thread 0 .wire, .thread 0 (.exit .completed),
          .thread 0 .unregister, .thread 0 .unregister, .thread 0 .unregister, .thread 0 .unregister,
          .thread 0 (.output 0 ['x']), .thread 0 (.append 0), .thread 0 (.endOfOutput 0)] = some s ∧
      ∃ run ∈ s.runs[0]?, run.Settled s.registry 0 ∧ s.registry.outputBuffers.lookup 0 = some 1 ∧
        ¬ run.Clean s.registry 0 := by
  refine ⟨?_, ?_, ?_⟩
  · obtain ⟨s, hrun, hs⟩ := exists_run_of_any
      (show (run (step matchNothing) {} (startWith .noDetection :: endOfProcess ++ [.thread 0 .wire, .thread 0 .wire])).any
        (fun s => decide (∃ run ∈ s.runs[0]?, run.Settled s.registry 0 ∧
          s.registry.runPhases.lookup 0 = some .noDetection)) = true by decide)
    obtain ⟨run, h, hsettled, hphase⟩ := of_decide_eq_true hs
    exact ⟨s, hrun, run, h, hsettled, hphase, fun hclean => absurd (hphase.symm.trans hclean.runPhases) (by decide)⟩
  · obtain ⟨s, hrun, hs⟩ := exists_run_of_any
      (show (run (step matchNothing) {} (startWith (.runningRegex ['r']) :: endOfProcess ++
            [.thread 0 .wire, .thread 0 .wire, .thread 0 .wire, .thread 0 .detect, .thread 0 .detect])).any
        (fun s => decide (∃ run ∈ s.runs[0]?, run.Settled s.registry 0 ∧
          s.registry.cancelSenders.lookup 0 = some false ∧ run.detector = .matching ['r'] false 0)) = true
        by decide)
    obtain ⟨run, h, hsettled, hsender, hdetector⟩ := of_decide_eq_true hs
    exact ⟨s, hrun, run, h, hsettled, hsender, hdetector,
      fun hclean => absurd (hsender.symm.trans hclean.cancelSenders) (by decide)⟩
  · obtain ⟨s, hrun, hs⟩ := exists_run_of_any
      (show (run (step matchNothing) {} [startWith .noDetection, .thread 0 .wire, .thread 0 .wire,
            .thread 0 (.exit .completed), .thread 0 .unregister, .thread 0 .unregister, .thread 0 .unregister,
            .thread 0 .unregister, .thread 0 (.output 0 ['x']), .thread 0 (.append 0), .thread 0 (.endOfOutput 0)]).any
        (fun s => decide (∃ run ∈ s.runs[0]?, run.Settled s.registry 0 ∧
          s.registry.outputBuffers.lookup 0 = some 1)) = true by decide)
    obtain ⟨run, h, hsettled, hbuffer⟩ := of_decide_eq_true hs
    exact ⟨s, hrun, run, h, hsettled, hbuffer,
      fun hclean => absurd (hbuffer.symm.trans hclean.outputBuffers) (by decide)⟩

/-- The detection is wired in time, and its matcher is stopped by `unregister`. -/
theorem run_clean_iff_in_time :
    ∃ s, run (step matchNothing) {} (startWith (.runningRegex ['r']) :: [.thread 0 .wire, .thread 0 .wire, .thread 0 .wire,
          .thread 0 .detect, .thread 0 .detect, .thread 0 (.output 0 ['x']), .thread 0 (.append 0), .thread 0 .tick,
          .thread 0 .detect] ++ endOfProcess ++ [.thread 0 .cancel]) = some s ∧
      ∃ run ∈ s.runs[0]?, run.detector = .stopped ∧ run.Clean s.registry 0 := by
  obtain ⟨s, hrun, hs⟩ := exists_run_of_any
    (show (run (step matchNothing) {} (startWith (.runningRegex ['r']) :: [.thread 0 .wire, .thread 0 .wire, .thread 0 .wire,
          .thread 0 .detect, .thread 0 .detect, .thread 0 (.output 0 ['x']), .thread 0 (.append 0), .thread 0 .tick,
          .thread 0 .detect] ++ endOfProcess ++ [.thread 0 .cancel])).any
      (fun s => decide (∃ run ∈ s.runs[0]?, run.detector = .stopped ∧ run.Settled s.registry 0)) = true by decide)
  obtain ⟨run, h, hstopped, hsettled⟩ := of_decide_eq_true hs
  exact ⟨s, hrun, run, h, hstopped, (run_clean_iff hrun h hsettled).mpr (by decide)⟩

end ActionSystem

end Builderbot.Actions
