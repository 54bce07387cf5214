import Mathlib.Data.List.Infix
import Builderbot.Staged.PromptText

/-!
# The statuses of a pipeline's steps

`run_pipeline` of `apps/staged/src-tauri/src/session_runner.rs` with the statuses that it keeps for the steps and writes to
the store. It returns in ten places, most of which mark the steps that are left as skipped.

`runPipeline_settled_iff` says when no step is left open: the branch for a handoff step marks nothing, so steps after one
that is reached stay pending.
-/

namespace Builderbot.Staged.Pipeline

open Builderbot.Git Builderbot.Staged.PromptText

/-! ## The data of a pipeline -/

inductive FailureStrategy where
  | abort (marker : Option Text)
  | handoffToAi (promptTemplate : Text)
  | continue
deriving DecidableEq

inductive PipelineStep where
  | command (label command : Text) (onFailure : FailureStrategy)
  | aiHandoff (label promptTemplate : Text)
deriving DecidableEq

inductive StepStatus where
  | pending
  | running
  | succeeded
  | failed
  | skipped
deriving DecidableEq

inductive StepType where
  | command
  | aiHandoff
deriving DecidableEq

structure PipelineStepStatus where
  label : Text
  stepType : StepType
  status : StepStatus
  output : Option Text
  error : Option Text
  startedAt : Option ℤ
  completedAt : Option ℤ
deriving DecidableEq

namespace PipelineStepStatus

variable (st : PipelineStepStatus)

def start (startedAt : ℤ) : PipelineStepStatus := { st with status := .running, startedAt := some startedAt }

def succeed (output : Text) (completedAt : ℤ) : PipelineStepStatus :=
  { st with status := .succeeded, output := some output, completedAt := some completedAt }

def fail (output : Text) (exitStatus : Text) (completedAt : ℤ) : PipelineStepStatus :=
  { st with
    status := .failed
    output := some output
    error := some ("Exit code: ".toList ++ exitStatus)
    completedAt := some completedAt }

def cancel (output : Text) (completedAt : ℤ) : PipelineStepStatus :=
  { st with
    status := .skipped
    output := if output = [] then none else some output
    error := some "Cancelled by user".toList
    completedAt := some completedAt }

def failToExecute (e : Text) (completedAt : ℤ) : PipelineStepStatus :=
  { st with status := .failed, error := some ("Failed to execute: ".toList ++ e), completedAt := some completedAt }

/-- The handoff itself is complete. -/
def handOff (completedAt : ℤ) : PipelineStepStatus := { st with status := .succeeded, completedAt := some completedAt }

end PipelineStepStatus

structure PipelineExecution where
  steps : List PipelineStepStatus
  currentStep : ℕ
  completedWithoutAi : Bool
deriving DecidableEq

/-- The status that `from_steps` gives a step. -/
def PipelineStep.initial : PipelineStep → PipelineStepStatus
  | .command label _ _ => ⟨label, .command, .pending, none, none, none, none⟩
  | .aiHandoff label _ => ⟨label, .aiHandoff, .pending, none, none, none, none⟩

/-- `PipelineExecution::from_steps`. -/
def fromSteps (steps : List PipelineStep) : PipelineExecution := ⟨steps.map PipelineStep.initial, 0, false⟩

/-- `PipelineConfig`: callers build the execution with `from_steps`. -/
structure PipelineConfig where
  prompt : Text
  steps : List PipelineStep
  pipeline : PipelineExecution
  fresh : pipeline = fromSteps steps

/-- `ExitStatus` with its `Display`. -/
structure ExitStatus where
  success : Bool
  display : Text

/-- What comes of a command: it completes, it is cancelled, or it cannot be spawned. -/
inductive CommandResult where
  | completed (status : ExitStatus) (stdout stderr : List UInt8)
  | cancelled (stdout stderr : List UInt8)
  | error (e : Text)

inductive PipelineOutcome where
  | completedWithoutAi
  | handedOffToAi (prompt : Text) (aiStepIndex : Option ℕ)
  | aborted (stepIndex : ℕ)
  | cancelled
deriving DecidableEq

/-- What happens at a step: whether the token is cancelled when the loop looks, the result of the command, and the two
times. -/
structure StepEvent where
  cancelled : Bool
  result : CommandResult
  startedAt : ℤ
  completedAt : ℤ

/-! ## The loop -/

/-- The variables of the loop, the execution that the store has, and the steps that were begun. -/
structure RunState where
  execution : PipelineExecution
  stepOutputs : List Text
  persisted : PipelineExecution
  executed : List ℕ

namespace RunState

variable (s : RunState)

/-- Assign to fields of `execution.steps[idx]`. -/
def modifyStep (idx : ℕ) (f : PipelineStepStatus → PipelineStepStatus) : RunState :=
  { s with execution := { s.execution with steps := s.execution.steps.modify idx f } }

/-- Mark the steps from an index on as skipped. -/
def skipFrom (idx : ℕ) : RunState :=
  { s with execution := { s.execution with
      steps := s.execution.steps.take idx ++ (s.execution.steps.drop idx).map fun step => { step with status := .skipped } } }

/-- `update_session_pipeline`. -/
def persist : RunState := { s with persisted := s.execution }

def pushOutput (output : Text) : RunState := { s with stepOutputs := s.stepOutputs ++ [output] }

/-- The step is running. -/
def begin (idx : ℕ) (startedAt : ℤ) : RunState :=
  (({ s with execution := { s.execution with currentStep := idx }, executed := s.executed ++ [idx] } : RunState).modifyStep
    idx (·.start startedAt)).persist

end RunState

/-- The loop of `run_pipeline` from a step on. -/
def runFrom (config : PipelineConfig) (events : ℕ → StepEvent) (idx : ℕ) :
    List PipelineStep → RunState → RunState × PipelineOutcome
  | [], s => (({ s with execution := { s.execution with completedWithoutAi := true } } : RunState).persist, .completedWithoutAi)
  | step :: rest, s =>
    let event := events idx
    if event.cancelled then ((s.skipFrom idx).persist, .cancelled)
    else
      let s := s.begin idx event.startedAt
      match step with
      | .command label command onFailure =>
        match event.result with
        | .completed status stdout stderr =>
          let combined := combineNormalizedCommandOutput stdout stderr
          if status.success then
            let s := (s.modifyStep idx (·.succeed combined event.completedAt)).persist
            runFrom config events (idx + 1) rest
              (s.pushOutput (formatStepOutputForPrompt label command combined false))
          else
            let s := s.modifyStep idx (·.fail combined status.display event.completedAt)
            let s := s.pushOutput (formatStepOutputForPrompt label command combined true)
            match onFailure with
            | .abort (some marker) =>
              if marker <:+: stripPromptHostileChars combined then ((s.skipFrom (idx + 1)).persist, .aborted idx)
              else
                let prompt := config.prompt ++ "\n\nStep '".toList ++ label ++
                  "' failed. Diagnose and fix using the output below:\n\n".toList ++ joinOutputs s.stepOutputs
                ((s.skipFrom (idx + 1)).persist, .handedOffToAi prompt none)
            | .abort none => ((s.skipFrom (idx + 1)).persist, .aborted idx)
            | .handoffToAi promptTemplate =>
              ((s.skipFrom (idx + 1)).persist, .handedOffToAi (fillTemplate promptTemplate s.stepOutputs) none)
            | .continue => runFrom config events (idx + 1) rest s.persist
        | .cancelled stdout stderr =>
          let combined := combineNormalizedCommandOutput stdout stderr
          let s := s.modifyStep idx (·.cancel combined event.completedAt)
          ((s.skipFrom (idx + 1)).persist, .cancelled)
        | .error e =>
          let s := s.modifyStep idx (·.failToExecute e event.completedAt)
          let prompt := config.prompt ++ "\n\nStep '".toList ++ label ++ "' failed to execute: ".toList ++ e ++
            "\n\n".toList ++ joinOutputs s.stepOutputs
          ((s.skipFrom (idx + 1)).persist, .handedOffToAi prompt none)
      | .aiHandoff _ promptTemplate =>
        let prompt := fillTemplate promptTemplate s.stepOutputs
        let s := (s.modifyStep idx (·.handOff event.completedAt)).persist
        (s, .handedOffToAi prompt (some idx))

def runPipeline (config : PipelineConfig) (events : ℕ → StepEvent) : RunState × PipelineOutcome :=
  runFrom config events 0 config.steps ⟨config.pipeline, [], config.pipeline, []⟩

/-! ## What is to hold when it returns -/

/-- How a step ends the run. -/
inductive Decision where
  | handsOff
  | aborts
  | cancels
deriving DecidableEq

/-- What the result of a step decides, or `none` when the run goes on. -/
def PipelineStep.decision (result : CommandResult) : PipelineStep → Option Decision
  | .aiHandoff _ _ => some .handsOff
  | .command _ _ onFailure =>
    match result with
    | .completed status stdout stderr =>
      if status.success then none
      else
        match onFailure with
        | .abort (some marker) =>
          if marker <:+: stripPromptHostileChars (combineNormalizedCommandOutput stdout stderr) then some .aborts
          else some .handsOff
        | .abort none => some .aborts
        | .handoffToAi _ => some .handsOff
        | .continue => none
    | .cancelled _ _ => some .cancels
    | .error _ => some .handsOff

/-- What the caller is told of a decision. -/
def PipelineOutcome.decision : PipelineOutcome → Option Decision
  | .completedWithoutAi => none
  | .handedOffToAi _ _ => some .handsOff
  | .aborted _ => some .aborts
  | .cancelled => some .cancels

/-- No step is left open, and the outcome is the one of the steps that were executed. -/
structure Settled (config : PipelineConfig) (events : ℕ → StepEvent) (r : RunState × PipelineOutcome) : Prop where
  length : r.1.persisted.steps.length = config.steps.length
  closed : ∀ st ∈ r.1.persisted.steps, st.status = .succeeded ∨ st.status = .failed ∨ st.status = .skipped
  /-- No step after a skipped one has been executed. -/
  skipped : ∀ i j st, r.1.persisted.steps[i]? = some st → st.status = .skipped → i < j → j ∉ r.1.executed
  /-- A step that decides is the last one executed, and the outcome is its. -/
  decided : ∀ i step d, i ∈ r.1.executed → config.steps[i]? = some step → step.decision (events i).result = some d →
    (∀ j ∈ r.1.executed, j ≤ i) ∧ r.2.decision = some d
  /-- Without an agent the run completes only when every step ran and none handed off. -/
  completed : r.2 = .completedWithoutAi → ∀ i step, config.steps[i]? = some step →
    i ∈ r.1.executed ∧ step.decision (events i).result ≠ some .handsOff

/-- The run comes to the step: it is not cancelled before, and no step before it decides. -/
def Reached (config : PipelineConfig) (events : ℕ → StepEvent) (i : ℕ) : Prop :=
  (∀ j ≤ i, (events j).cancelled = false) ∧
    ∀ j < i, ∀ step, config.steps[j]? = some step → step.decision (events j).result = none

/-! ## How a run ends -/

/-- The status of a step. -/
def PipelineExecution.statusAt (e : PipelineExecution) (i : ℕ) : Option StepStatus := e.steps[i]?.map (·.status)

def PipelineStep.isAiHandoff : PipelineStep → Bool
  | .aiHandoff _ _ => true
  | .command _ _ _ => false

/-- A step that ran to its end. -/
def Ran (e : PipelineExecution) (i : ℕ) : Prop := e.statusAt i = some .succeeded ∨ e.statusAt i = some .failed

/-- The loop goes on after the step. -/
def Passed (config : PipelineConfig) (events : ℕ → StepEvent) (i : ℕ) : Prop :=
  (events i).cancelled = false ∧ ∀ step, config.steps[i]? = some step → step.decision (events i).result = none

/-- The loop is before a step. -/
structure Before (config : PipelineConfig) (idx : ℕ) (e : PipelineExecution) (executed : List ℕ) : Prop where
  length : e.steps.length = config.steps.length
  ran : ∀ i < idx, Ran e i
  pending : ∀ i, idx ≤ i → i < config.steps.length → e.statusAt i = some .pending
  executed : executed = List.range idx

/-- The loop has given a step its last status. -/
structure Marked (config : PipelineConfig) (idx : ℕ) (status : StepStatus) (e : PipelineExecution) (executed : List ℕ) :
    Prop where
  length : e.steps.length = config.steps.length
  ran : ∀ i < idx, Ran e i
  status : e.statusAt idx = some status
  pending : ∀ i, idx < i → i < config.steps.length → e.statusAt i = some .pending
  executed : executed = List.range (idx + 1)

/-- The ways in which a run ends: no step is left, the token is cancelled before a step, or a step decides. -/
inductive Ended (config : PipelineConfig) (events : ℕ → StepEvent) : RunState × PipelineOutcome → Prop where
  | completed {s : RunState} (hlength : s.persisted.steps.length = config.steps.length)
      (hpassed : ∀ i < config.steps.length, Passed config events i)
      (hran : ∀ i < config.steps.length, Ran s.persisted i)
      (hexecuted : s.executed = List.range config.steps.length) : Ended config events (s, .completedWithoutAi)
  | cancelledBefore {s : RunState} {k : ℕ} (hlength : s.persisted.steps.length = config.steps.length)
      (hcancelled : (events k).cancelled = true) (hpassed : ∀ i < k, Passed config events i)
      (hran : ∀ i < k, Ran s.persisted i)
      (hskipped : ∀ i, k ≤ i → i < config.steps.length → s.persisted.statusAt i = some .skipped)
      (hexecuted : s.executed = List.range k) (hk : k < config.steps.length) : Ended config events (s, .cancelled)
  | decided {s : RunState} {o : PipelineOutcome} {k : ℕ} {step : PipelineStep} {d : Decision} {status : StepStatus}
      (hlength : s.persisted.steps.length = config.steps.length) (hstep : config.steps[k]? = some step)
      (hcancelled : (events k).cancelled = false) (hpassed : ∀ i < k, Passed config events i)
      (hdecision : step.decision (events k).result = some d) (houtcome : o.decision = some d)
      (hran : ∀ i < k, Ran s.persisted i) (hstatus : s.persisted.statusAt k = some status)
      (hclosed : status = .succeeded ∨ status = .failed ∨ status = .skipped)
      (hafter : ∀ i, k < i → i < config.steps.length →
        s.persisted.statusAt i = some (if step.isAiHandoff then .pending else .skipped))
      (hexecuted : s.executed = List.range (k + 1)) : Ended config events (s, o)

variable {e : PipelineExecution} {step : PipelineStep}

section Steps

variable {config : PipelineConfig} {idx : ℕ} {s : RunState} {status : StepStatus}

theorem statusAt_modifyStep (f : PipelineStepStatus → PipelineStepStatus) (hf : ∀ st, (f st).status = status) (i : ℕ) :
    (s.modifyStep idx f).execution.statusAt i =
      if idx = i then (s.execution.statusAt i).map fun _ => status else s.execution.statusAt i := by
  rw [PipelineExecution.statusAt, RunState.modifyStep, List.getElem?_modify, PipelineExecution.statusAt]
  cases s.execution.steps[i]? with
  | none => simp
  | some st =>
    by_cases h : idx = i
    · simp [h, hf]
    · simp [h]

theorem statusAt_skipFrom (hidx : idx ≤ s.execution.steps.length) (i : ℕ) :
    (s.skipFrom idx).execution.statusAt i =
      if i < idx then s.execution.statusAt i else (s.execution.statusAt i).map fun _ => .skipped := by
  have hlen : (s.execution.steps.take idx).length = idx := List.length_take_of_le hidx
  rw [PipelineExecution.statusAt, RunState.skipFrom]
  dsimp only
  split
  · rename_i hlt
    rw [List.getElem?_append_left (by omega), List.getElem?_take_of_lt hlt, PipelineExecution.statusAt]
  · rename_i hge
    rw [List.getElem?_append_right (by omega), List.getElem?_map, List.getElem?_drop, hlen,
      Nat.add_sub_cancel' (by omega), PipelineExecution.statusAt, Option.map_map, Option.map_map]
    rfl

theorem length_skipFrom (hidx : idx ≤ s.execution.steps.length) :
    (s.skipFrom idx).execution.steps.length = s.execution.steps.length := by
  rw [RunState.skipFrom]
  simp
  omega

/-- Beginning a step and giving it a status. -/
theorem Before.mark (h : Before config idx s.execution s.executed) (hidx : idx < config.steps.length) (startedAt : ℤ)
    (f : PipelineStepStatus → PipelineStepStatus) (hf : ∀ st, (f st).status = status) :
    Marked config idx status ((s.begin idx startedAt).modifyStep idx f).execution
      ((s.begin idx startedAt).modifyStep idx f).executed := by
  have hstatus : ∀ i, ((s.begin idx startedAt).modifyStep idx f).execution.statusAt i =
      if idx = i then some status else s.execution.statusAt i := by
    intro i
    rw [statusAt_modifyStep f hf]
    have hbegin : (s.begin idx startedAt).execution.statusAt i =
        if idx = i then (s.execution.statusAt i).map fun _ => .running else s.execution.statusAt i :=
      statusAt_modifyStep (·.start startedAt) (fun _ => rfl) i
    rw [hbegin]
    split
    · rename_i heq
      rw [← heq, h.pending idx (Nat.le_refl _) hidx]
      rfl
    · rfl
  constructor
  · rw [RunState.modifyStep, List.length_modify, RunState.begin, RunState.persist, RunState.modifyStep,
      List.length_modify]
    exact h.length
  · intro i hi
    rw [Ran, hstatus, if_neg (by omega)]
    exact h.ran i hi
  · rw [hstatus, if_pos rfl]
  · intro i hi hlt
    rw [hstatus, if_neg (by omega)]
    exact h.pending i (Nat.le_of_lt hi) hlt
  · have hexecuted : ((s.begin idx startedAt).modifyStep idx f).executed = s.executed ++ [idx] := rfl
    rw [hexecuted, h.executed, List.range_succ]

/-- After a step that ran to its end the loop is before the next one. -/
theorem Marked.before {executed : List ℕ} (h : Marked config idx status e executed)
    (hstatus : status = .succeeded ∨ status = .failed) : Before config (idx + 1) e executed := by
  refine ⟨h.length, ?_, fun i hi => h.pending i hi, h.executed⟩
  intro i hi
  rcases Nat.lt_succ_iff_lt_or_eq.mp hi with hlt | rfl
  · exact h.ran i hlt
  · rw [Ran, h.status]
    rcases hstatus with rfl | rfl
    · exact .inl rfl
    · exact .inr rfl

/-- A command that decides: the steps after it are skipped. -/
theorem Marked.ended {events : ℕ → StepEvent} {d : Decision} {o : PipelineOutcome}
    (h : Marked config idx status s.execution s.executed)
    (hstep : config.steps[idx]? = some step) (hcancelled : (events idx).cancelled = false)
    (hpassed : ∀ i < idx, Passed config events i) (hdecision : step.decision (events idx).result = some d)
    (houtcome : o.decision = some d) (hclosed : status = .failed ∨ status = .skipped) (hcommand : step.isAiHandoff = false) :
    Ended config events ((s.skipFrom (idx + 1)).persist, o) := by
  have hidx : idx < config.steps.length := (List.getElem?_eq_some_iff.mp hstep).1
  have hle : idx + 1 ≤ s.execution.steps.length := by
    rw [h.length]
    exact hidx
  have hstatus := statusAt_skipFrom hle
  refine Ended.decided ((length_skipFrom hle).trans h.length) hstep hcancelled hpassed hdecision houtcome ?ran
    (?status : _ = some status) (.inr hclosed) ?after h.executed
  case ran =>
    intro i hi
    rw [Ran, RunState.persist, hstatus, if_pos (by omega)]
    exact h.ran i hi
  case status => rw [RunState.persist, hstatus, if_pos (Nat.lt_succ_self idx), h.status]
  case after =>
    intro i hi hlt
    rw [RunState.persist, hstatus, if_neg (by omega), h.pending i hi hlt, hcommand]
    rfl

end Steps

theorem decision_of_success {status : ExitStatus} (h : status.success = true) (label command : Text)
    (onFailure : FailureStrategy) (stdout stderr : List UInt8) :
    (PipelineStep.command label command onFailure).decision (.completed status stdout stderr) = none := by
  simp [PipelineStep.decision, h]

theorem decision_of_failure {status : ExitStatus} (h : ¬ status.success = true) (label command : Text)
    (onFailure : FailureStrategy) (stdout stderr : List UInt8) :
    (PipelineStep.command label command onFailure).decision (.completed status stdout stderr) =
      match onFailure with
      | .abort (some marker) =>
        if marker <:+: stripPromptHostileChars (combineNormalizedCommandOutput stdout stderr) then some .aborts
        else some .handsOff
      | .abort none => some .aborts
      | .handoffToAi _ => some .handsOff
      | .continue => none := by
  simp [PipelineStep.decision, h]

/-- The loop from a step on that it has come to. -/
theorem runFrom_ended (config : PipelineConfig) (events : ℕ → StepEvent) {idx : ℕ} {rest : List PipelineStep} {s : RunState}
    (hrest : config.steps.drop idx = rest) (hidx : idx ≤ config.steps.length)
    (h : Before config idx s.execution s.executed) (hpassed : ∀ i < idx, Passed config events i) :
    Ended config events (runFrom config events idx rest s) := by
  induction rest generalizing idx s with
  | nil =>
    have hlast : idx = config.steps.length := by
      have hle : config.steps.length ≤ idx := List.drop_eq_nil_iff.mp hrest
      omega
    subst hlast
    exact .completed h.length hpassed h.ran h.executed
  | cons step rest ih =>
    have hstep : config.steps[idx]? = some step := by
      have hhead := congrArg List.head? hrest
      rwa [List.head?_drop] at hhead
    have hrest' : config.steps.drop (idx + 1) = rest := by
      rw [← List.tail_drop, hrest]
      rfl
    have hidx : idx < config.steps.length := (List.getElem?_eq_some_iff.mp hstep).1
    rw [runFrom]
    dsimp only
    split
    · -- the token is cancelled
      rename_i hcancelled
      have hle : idx ≤ s.execution.steps.length := by
        rw [h.length]
        omega
      have hstatus := statusAt_skipFrom hle
      refine .cancelledBefore ((length_skipFrom hle).trans h.length) hcancelled hpassed ?_ ?_ h.executed hidx
      · intro i hi
        rw [Ran, RunState.persist, hstatus, if_pos hi]
        exact h.ran i hi
      · intro i hi hlt
        rw [RunState.persist, hstatus, if_neg (by omega), h.pending i hi hlt]
        rfl
    rename_i hcancelled
    rw [Bool.not_eq_true] at hcancelled
    -- a step without a decision lets the loop go on
    have hnext : step.decision (events idx).result = none → ∀ i < idx + 1, Passed config events i := by
      intro hnone i hi
      rcases Nat.lt_succ_iff_lt_or_eq.mp hi with hlt | rfl
      · exact hpassed i hlt
      · refine ⟨hcancelled, ?_⟩
        intro step' hstep'
        rw [hstep, Option.some.injEq] at hstep'
        exact hstep' ▸ hnone
    cases step with
    -- a handoff ends the loop and leaves the steps after it as they are
    | aiHandoff label promptTemplate =>
      have hmark := h.mark hidx (events idx).startedAt (·.handOff (events idx).completedAt) fun _ => rfl
      exact .decided hmark.length hstep hcancelled hpassed rfl rfl hmark.ran hmark.status (.inl rfl) hmark.pending
        hmark.executed
    | command label command onFailure =>
      cases hresult : (events idx).result with
      | completed status stdout stderr =>
        rw [hresult] at hnext
        dsimp only
        split
        · rename_i hsuccess
          have hmark := h.mark hidx (events idx).startedAt (·.succeed (combineNormalizedCommandOutput stdout stderr)
            (events idx).completedAt) fun _ => rfl
          exact ih hrest' hidx (hmark.before (.inl rfl)) (hnext (decision_of_success hsuccess _ _ _ _ _))
        -- the policy of the step decides what a failure does
        · rename_i hfailure
          have hdecision := decision_of_failure hfailure label command onFailure stdout stderr
          rw [← hresult] at hdecision
          have hmark := h.mark hidx (events idx).startedAt (·.fail (combineNormalizedCommandOutput stdout stderr)
            status.display (events idx).completedAt) fun _ => rfl
          cases onFailure with
          | abort marker =>
            cases marker with
            | none => exact Marked.ended (by exact hmark) hstep hcancelled hpassed hdecision rfl (.inl rfl) rfl
            | some marker =>
              dsimp only at hdecision ⊢
              split
              · rename_i hmarker
                rw [if_pos hmarker] at hdecision
                exact Marked.ended (by exact hmark) hstep hcancelled hpassed hdecision rfl (.inl rfl) rfl
              · rename_i hmarker
                rw [if_neg hmarker] at hdecision
                exact Marked.ended (by exact hmark) hstep hcancelled hpassed hdecision rfl (.inl rfl) rfl
          | handoffToAi promptTemplate => exact Marked.ended (by exact hmark) hstep hcancelled hpassed hdecision rfl (.inl rfl) rfl
          | «continue» =>
            rw [hresult] at hdecision
            exact ih hrest' hidx (hmark.before (.inr rfl)) (hnext hdecision)
      | cancelled stdout stderr =>
        have hmark := h.mark hidx (events idx).startedAt (·.cancel (combineNormalizedCommandOutput stdout stderr)
          (events idx).completedAt) fun _ => rfl
        exact hmark.ended hstep hcancelled hpassed (by rw [hresult]; rfl) rfl (.inr rfl) rfl
      | error e =>
        have hmark := h.mark hidx (events idx).startedAt (·.failToExecute e (events idx).completedAt) fun _ => rfl
        exact hmark.ended hstep hcancelled hpassed (by rw [hresult]; rfl) rfl (.inl rfl) rfl

theorem runPipeline_ended (config : PipelineConfig) (events : ℕ → StepEvent) :
    Ended config events (runPipeline config events) := by
  apply runFrom_ended config events List.drop_zero (Nat.zero_le _)
  · constructor
    · rw [config.fresh, fromSteps, List.length_map]
    · exact fun i hi => absurd hi (Nat.not_lt_zero i)
    · intro i _ hi
      rw [config.fresh, PipelineExecution.statusAt, fromSteps, List.getElem?_map, List.getElem?_eq_getElem hi]
      cases config.steps[i] <;> rfl
    · rfl
  · exact fun i hi => absurd hi (Nat.not_lt_zero i)

variable {i : ℕ}

theorem statusAt_of_getElem? {st : PipelineStepStatus} (h : e.steps[i]? = some st) :
    e.statusAt i = some st.status := by
  rw [PipelineExecution.statusAt, h]
  rfl

theorem Ran.ne_skipped (h : Ran e i) : e.statusAt i ≠ some .skipped := by
  rintro hskipped
  rcases h with h | h <;> exact absurd (hskipped.symm.trans h) (by decide)

theorem Ran.closed {st : PipelineStepStatus} (h : Ran e i) (hst : e.steps[i]? = some st) :
    st.status = .succeeded ∨ st.status = .failed ∨ st.status = .skipped := by
  rw [Ran, statusAt_of_getElem? hst, Option.some.injEq, Option.some.injEq] at h
  exact h.imp_right .inl

theorem PipelineStep.decision_of_isAiHandoff (h : step.isAiHandoff = true) (result : CommandResult) :
    step.decision result = some .handsOff := by
  cases step with
  | aiHandoff => rfl
  | command => exact absurd h Bool.false_ne_true

section Settled

variable {config : PipelineConfig} {events : ℕ → StepEvent}

theorem Passed.decision {d : Decision} (h : Passed config events i)
    (hstep : config.steps[i]? = some step) : step.decision (events i).result ≠ some d := by
  rw [h.2 step hstep]
  exact Option.some_ne_none d |>.symm

/-- A handoff step with steps after it leaves them open. -/
theorem Ended.last_of_settled {r : RunState × PipelineOutcome} (h : Ended config events r) (hsettled : Settled config events r)
    (hstep : config.steps[i]? = some step) (hhandoff : step.isAiHandoff = true)
    (hreached : Reached config events i) : i + 1 = config.steps.length := by
  have hi : i < config.steps.length := (List.getElem?_eq_some_iff.mp hstep).1
  have hdecides := PipelineStep.decision_of_isAiHandoff hhandoff (events i).result
  cases h with
  | completed _ hpassed => exact absurd hdecides ((hpassed i hi).decision hstep)
  | @cancelledBefore s k _ hcancelled hpassed =>
    rcases Nat.lt_or_ge i k with hik | hki
    · exact absurd hdecides ((hpassed i hik).decision hstep)
    · exact absurd ((hreached.1 k hki).symm.trans hcancelled) Bool.false_ne_true
  | @decided s o k step' d status hlength hstep' _ hpassed hdecision _ _ _ _ hafter =>
    rcases Nat.lt_trichotomy i k with hik | rfl | hki
    · exact absurd hdecides ((hpassed i hik).decision hstep)
    · obtain rfl := Option.some.inj (hstep.symm.trans hstep')
      by_contra hne
      have hopen := hafter (i + 1) (Nat.lt_succ_self i) (by omega)
      rw [hhandoff, if_pos rfl] at hopen
      obtain ⟨st, hst⟩ : ∃ st, s.persisted.steps[i + 1]? = some st :=
        ⟨_, List.getElem?_eq_getElem (by rw [hlength]; omega)⟩
      rw [statusAt_of_getElem? hst, Option.some.injEq] at hopen
      have hclosed := hsettled.closed st (List.mem_of_getElem? hst)
      rw [hopen] at hclosed
      exact absurd hclosed (by decide)
    · exact absurd ((hreached.2 k hki step' hstep').symm.trans hdecision) (Option.some_ne_none d).symm

/-- Where only the last step hands off, no step is left open. -/
theorem Ended.settled {r : RunState × PipelineOutcome} (h : Ended config events r)
    (hlast : ∀ i step, config.steps[i]? = some step → step.isAiHandoff = true → Reached config events i →
      i + 1 = config.steps.length) : Settled config events r := by
  have hlt : ∀ {i : ℕ} {step : PipelineStep}, config.steps[i]? = some step → i < config.steps.length :=
    fun hstep => (List.getElem?_eq_some_iff.mp hstep).1
  cases h with
  | @completed s hlength hpassed hran hexecuted =>
    have hindex : ∀ {i st}, s.persisted.steps[i]? = some st → i < config.steps.length := fun hst =>
      hlength ▸ (List.getElem?_eq_some_iff.mp hst).1
    refine ⟨hlength, ?_, ?_, ?_, ?_⟩
    · intro st hst
      obtain ⟨i, hi⟩ := List.mem_iff_getElem?.mp hst
      exact (hran i (hindex hi)).closed hi
    · intro i j st hst hskipped
      exact absurd (hskipped ▸ statusAt_of_getElem? hst) (hran i (hindex hst)).ne_skipped
    · intro i step d _ hstep hdecision
      exact absurd hdecision ((hpassed i (hlt hstep)).decision hstep)
    · intro _ i step hstep
      rw [hexecuted, List.mem_range]
      exact ⟨hlt hstep, (hpassed i (hlt hstep)).decision hstep⟩
  | @cancelledBefore s k hlength hcancelled hpassed hran hskipped hexecuted hk =>
    refine ⟨hlength, ?_, ?_, ?_, ?_⟩
    · intro st hst
      obtain ⟨i, hi⟩ := List.mem_iff_getElem?.mp hst
      rcases Nat.lt_or_ge i k with hik | hki
      · exact (hran i hik).closed hi
      · have hskip := hskipped i hki (hlength ▸ (List.getElem?_eq_some_iff.mp hi).1)
        rw [statusAt_of_getElem? hi, Option.some.injEq] at hskip
        exact .inr (.inr hskip)
    · intro i j st hst hskip hij
      rw [hexecuted, List.mem_range]
      intro hj
      exact absurd (hskip ▸ statusAt_of_getElem? hst) (hran i (by omega)).ne_skipped
    · intro i step d hi hstep hdecision
      rw [hexecuted, List.mem_range] at hi
      exact absurd hdecision ((hpassed i hi).decision hstep)
    · exact fun h => absurd h (by simp)
  | @decided s o k step d status hlength hstep hcancelled hpassed hdecision houtcome hran hstatus hclosed hafter hexecuted =>
    -- every step before the one that decides has passed
    have hreached : Reached config events k := by
      refine ⟨fun j hj => ?_, fun j hj step' hstep' => (hpassed j hj).2 step' hstep'⟩
      rcases Nat.lt_or_eq_of_le hj with hlt | rfl
      · exact (hpassed j hlt).1
      · exact hcancelled
    refine ⟨hlength, ?_, ?_, ?_, ?_⟩
    · intro st hst
      obtain ⟨i, hi⟩ := List.mem_iff_getElem?.mp hst
      have hin : i < config.steps.length := hlength ▸ (List.getElem?_eq_some_iff.mp hi).1
      rcases Nat.lt_trichotomy i k with hik | rfl | hki
      · exact (hran i hik).closed hi
      · rw [statusAt_of_getElem? hi, Option.some.injEq] at hstatus
        rwa [hstatus]
      -- after a handoff no step is left, and other ends skip the rest
      · have hopen := hafter i hki hin
        cases hhandoff : step.isAiHandoff with
        | true =>
          have := hlast k step hstep hhandoff hreached
          omega
        | false =>
          rw [hhandoff, statusAt_of_getElem? hi, Option.some.injEq] at hopen
          exact .inr (.inr hopen)
    · intro i j st hst hskip hij
      rw [hexecuted, List.mem_range]
      intro hj
      exact absurd (hskip ▸ statusAt_of_getElem? hst) (hran i (by omega)).ne_skipped
    · intro i step' d' hi hstep' hdecision'
      rw [hexecuted, List.mem_range] at hi
      rcases Nat.lt_succ_iff_lt_or_eq.mp hi with hik | rfl
      · exact absurd hdecision' ((hpassed i hik).decision hstep')
      · obtain rfl := Option.some.inj (hstep.symm.trans hstep')
        rw [hdecision] at hdecision'
        refine ⟨fun j hj => ?_, houtcome.trans hdecision'⟩
        rw [hexecuted, List.mem_range] at hj
        omega
    · rintro rfl
      exact absurd houtcome (by simp [PipelineOutcome.decision])

end Settled

/-- A run leaves no step open exactly when no handoff step that it comes to has steps after it. -/
theorem runPipeline_settled_iff (config : PipelineConfig) (events : ℕ → StepEvent) :
    Settled config events (runPipeline config events) ↔
      ∀ i step, config.steps[i]? = some step → step.isAiHandoff = true → Reached config events i →
        i + 1 = config.steps.length :=
  ⟨fun h _ _ hstep hhandoff hreached => (runPipeline_ended config events).last_of_settled h hstep hhandoff hreached,
    (runPipeline_ended config events).settled⟩

/-- A handoff and a push after it. -/
def handoffThenPush : List PipelineStep :=
  [.aiHandoff "Write message".toList "{step_outputs}".toList, .command "Push".toList "git push".toList (.abort none)]

/-- Nothing is cancelled. -/
def undisturbed : ℕ → StepEvent := fun _ => ⟨false, .error [], 0, 0⟩

/-- The push stays pending. -/
theorem not_settled_handoffThenPush :
    ((runPipeline ⟨[], handoffThenPush, _, rfl⟩ undisturbed).1.persisted.steps.map (·.status) = [.succeeded, .pending]) ∧
      ¬ Settled ⟨[], handoffThenPush, _, rfl⟩ undisturbed (runPipeline ⟨[], handoffThenPush, _, rfl⟩ undisturbed) := by
  have hstatuses : (runPipeline ⟨[], handoffThenPush, _, rfl⟩ undisturbed).1.persisted.steps.map (·.status) =
      [.succeeded, .pending] := by decide
  refine ⟨hstatuses, fun h => ?_⟩
  have hmem : StepStatus.pending ∈
      (runPipeline ⟨[], handoffThenPush, _, rfl⟩ undisturbed).1.persisted.steps.map (·.status) := by
    rw [hstatuses]
    decide
  obtain ⟨st, hst, hpending⟩ := List.mem_map.mp hmem
  have hclosed := h.closed st hst
  rw [hpending] at hclosed
  exact absurd hclosed (by decide)

end Builderbot.Staged.Pipeline
