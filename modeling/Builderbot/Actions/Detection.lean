import Builderbot.Actions.RunDetection

/-!
# The detection of actions

`detect_repo_actions_impl` and `run_prerun_actions_impl` of `apps/staged/src-tauri/src/actions/commands.rs`, with the
store calls of `store/actions.rs` that they make, for branches of one repo and subpath. There is at most one context for
it, by a unique index. A step is one store call, which may fail, or the end of the detection.
-/

namespace Builderbot.Actions

open Git (Text)

/-! ## The store -/

structure ActionContext where
  hasDetectedActions : Bool := false
  detectingActions : Bool := false
deriving DecidableEq, Repr

/-- What the AI suggests. -/
structure SuggestedAction where
  name : Text
  command : Text
  actionType : ActionType
  autoCommit : Bool
deriving DecidableEq, Repr

/-- A row of `repo_actions` for the context. -/
structure RepoAction where
  name : Text
  command : Text
  actionType : ActionType
  sortOrder : ℤ
  autoCommit : Bool
  /-- It was created from a suggestion, and not by the user. -/
  detected : Bool
deriving DecidableEq, Repr

/-- The two entry points. -/
inductive DetectionEntry where
  | detectRepoActions
  | runPrerunActions
deriving DecidableEq, Repr

/-- Where a call is: before the store call, or the await, that it names. -/
inductive DetectionPhase where
  | getContext
  | insertContext
  | setDetecting
  | detect
  | listActions (suggestions : List SuggestedAction)
  /-- `create_repo_action`, for the first suggestion that is new. -/
  | createAction (listed : ℕ) (existingCommands : List Text) (nextSortOrder : ℤ) (suggestion : SuggestedAction)
      (rest : List SuggestedAction)
  | markDetected
  /-- The call runs the prerun actions, and changes neither the context nor the actions. -/
  | runActions
  /-- The call has returned, with "Detection is already in progress for this repository" if `refused`. -/
  | returned (refused : Bool)
deriving DecidableEq, Repr

structure DetectionCall where
  entry : DetectionEntry
  phase : DetectionPhase := .getContext
deriving DecidableEq, Repr

structure DetectionState where
  context : Option ActionContext := none
  actions : List RepoAction := []
  calls : List DetectionCall := []
deriving DecidableEq, Repr

/-! ## The calls -/

/-- The body of the calls, once they have the context. -/
def DetectionEntry.check (entry : DetectionEntry) (context : ActionContext) : DetectionPhase :=
  match entry with
  | .detectRepoActions => if context.detectingActions then .returned true else .setDetecting
  | .runPrerunActions => if context.hasDetectedActions then .runActions else .setDetecting

/-- The loop over the suggestions, up to its next store call. -/
def createNext (listed : ℕ) (existingCommands : List Text) (nextSortOrder : ℤ) (suggestions : List SuggestedAction) :
    DetectionPhase :=
  match suggestions.dropWhile fun suggestion => existingCommands.contains suggestion.command with
  | [] => .markDetected
  | suggestion :: rest => .createAction listed existingCommands nextSortOrder suggestion rest

inductive DetectionEvent where
  | call (entry : DetectionEntry)
  /-- The store call of the call at `i`, and whether it succeeds. -/
  | store (i : ℕ) (ok : Bool)
  /-- The detection of the call at `i` ends, with suggestions if it does not fail. -/
  | detected (i : ℕ) (suggestions : Option (List SuggestedAction))
deriving DecidableEq, Repr

namespace DetectionState

variable (s : DetectionState)

/-- The context and the actions after the store call of a phase, and the next phase. -/
def storeCall (entry : DetectionEntry) : DetectionPhase → Option (Option ActionContext × List RepoAction × DetectionPhase)
  | .getContext =>
    match s.context with
    | some context => some (s.context, s.actions, entry.check context)
    | none => some (none, s.actions, .insertContext)
  | .insertContext =>
    match s.context with
    -- the unique index
    | some _ => some (s.context, s.actions, .returned false)
    | none => some (some {}, s.actions, entry.check {})
  | .setDetecting => some (s.context.map fun context => { context with detectingActions := true }, s.actions, .detect)
  | .listActions suggestions =>
    let nextSortOrder := ((s.actions.map (·.sortOrder)).max?.getD (-1)) + 1
    some (s.context, s.actions, createNext s.actions.length (s.actions.map (·.command)) nextSortOrder suggestions)
  | .createAction listed existingCommands nextSortOrder suggestion rest =>
    let action : RepoAction :=
      ⟨suggestion.name, suggestion.command, suggestion.actionType, nextSortOrder, suggestion.autoCommit, true⟩
    some (s.context, s.actions ++ [action],
      createNext listed (suggestion.command :: existingCommands) (nextSortOrder + 1) rest)
  | .markDetected =>
    some (s.context.map fun _ => { hasDetectedActions := true, detectingActions := false }, s.actions,
      match entry with
      | .detectRepoActions => .returned false
      | .runPrerunActions => .runActions)
  | .runActions => some (s.context, s.actions, .returned false)
  | .detect | .returned _ => none

def step : DetectionEvent → Option DetectionState
  | .call entry => some { s with calls := s.calls ++ [{ entry }] }
  | .store i ok =>
    s.calls[i]?.bind fun call =>
      (s.storeCall call.entry call.phase).map fun next =>
        -- every failure is an early return
        if ok then ⟨next.1, next.2.1, s.calls.set i { call with phase := next.2.2 }⟩
        else { s with calls := s.calls.set i { call with phase := .returned false } }
  | .detected i suggestions =>
    s.calls[i]?.bind fun call =>
      if call.phase = .detect then
        let phase : DetectionPhase :=
          match call.entry with
          | .detectRepoActions => .markDetected
          | .runPrerunActions => .listActions (suggestions.getD [])
        some { s with calls := s.calls.set i { call with phase } }
      else none

/-! ## Recorded once -/

/-- The commands of the actions that come from a detection. -/
def detectedCommands : List Text := (s.actions.filter (·.detected)).map (·.command)

/-- No detection is marked as being in progress. -/
def Idle : Prop := ∀ context ∈ s.context, context.detectingActions = false

end DetectionState

/-- The call has set the flag and is to clear it. -/
def DetectionPhase.Marked : DetectionPhase → Prop
  | .detect | .listActions _ | .createAction .. | .markDetected => True
  | .getContext | .insertContext | .setDetecting | .runActions | .returned _ => False

namespace DetectionState

variable (s : DetectionState)

/-- A store call may succeed: an action that it creates has not been created by another call since it listed them. -/
def MayCreate : DetectionPhase → Prop
  | .createAction listed _ _ suggestion _ => ∀ action ∈ s.actions.drop listed, action.command ≠ suggestion.command
  | .getContext | .insertContext | .setDetecting | .detect | .listActions _ | .markDetected | .runActions
    | .returned _ => True

/-- A store call may fail: the call has not set the flag, or it is cleared, or another call is to clear it. -/
def MayFail (i : ℕ) (phase : DetectionPhase) : Prop :=
  phase.Marked → s.Idle ∨ ∃ other ∈ s.calls.eraseIdx i, other.phase.Marked

/-- The condition on a step. -/
def Timely : DetectionEvent → Prop
  | .store i true => ∀ call ∈ s.calls[i]?, s.MayCreate call.phase
  | .store i false => ∀ call ∈ s.calls[i]?, s.MayFail i call.phase
  | .call _ | .detected .. => True

/-! ## The invariant -/

/-- What a call knows of the actions when it is about to create one. -/
def Seen (actions : List RepoAction) : DetectionPhase → Prop
  | .createAction listed existingCommands _ suggestion _ =>
    listed ≤ actions.length ∧ (∀ action ∈ actions.take listed, action.command ∈ existingCommands) ∧
      suggestion.command ∉ existingCommands
  | .getContext | .insertContext | .setDetecting | .detect | .listActions _ | .markDetected | .runActions
    | .returned _ => True

/-- Every command was created once, and if the flag is set a call is to clear it. -/
structure Inv (s : DetectionState) : Prop where
  once : s.detectedCommands.Nodup
  flag : s.Idle ∨ ∃ call ∈ s.calls, call.phase.Marked
  seen : ∀ call ∈ s.calls, Seen s.actions call.phase

section

variable {s t : DetectionState} {actions : List RepoAction} {phase : DetectionPhase}

theorem Seen.append (h : Seen actions phase) (action : RepoAction) : Seen (actions ++ [action]) phase := by
  cases phase with
  | createAction listed existingCommands nextSortOrder suggestion rest =>
    obtain ⟨hlisted, hexisting, hnew⟩ := h
    refine ⟨?_, ?_, hnew⟩
    · rw [List.length_append]
      omega
    · rw [List.take_append_of_le_length hlisted]
      exact hexisting
  | _ => exact trivial

/-- The loop goes on to a suggestion that is new to it. -/
theorem seen_createNext {listed : ℕ} {existingCommands : List Text} (hlisted : listed ≤ actions.length)
    (hexisting : ∀ action ∈ actions.take listed, action.command ∈ existingCommands) (nextSortOrder : ℤ)
    (suggestions : List SuggestedAction) :
    Seen actions (createNext listed existingCommands nextSortOrder suggestions) := by
  rw [createNext]
  have hhead := List.head?_dropWhile_not (fun suggestion : SuggestedAction =>
    existingCommands.contains suggestion.command) suggestions
  split
  next => exact trivial
  next suggestion rest hdrop =>
    rw [hdrop] at hhead
    refine ⟨hlisted, hexisting, fun hmem => ?_⟩
    rw [List.head?_cons] at hhead
    exact Bool.noConfusion ((List.contains_iff_mem.mpr hmem).symm.trans hhead)

/-- The next phase of a call that stays between the two writes of the flag. -/
theorem marked_createNext (listed : ℕ) (existingCommands : List Text) (nextSortOrder : ℤ)
    (suggestions : List SuggestedAction) :
    (createNext listed existingCommands nextSortOrder suggestions).Marked := by
  rw [createNext]
  split <;> exact trivial

theorem not_marked_check (entry : DetectionEntry) (context : ActionContext) :
    ¬ (entry.check context).Marked ∧ Seen actions (entry.check context) := by
  cases entry with
  | detectRepoActions | runPrerunActions =>
    rw [DetectionEntry.check]
    split <;> exact ⟨id, trivial⟩

/-- The flag is in order without a call that is not to clear it. -/
theorem Inv.others {i : ℕ} {call : DetectionCall} (h : s.Inv) (hcall : s.calls[i]? = some call)
    (hmarked : ¬ call.phase.Marked) : s.Idle ∨ ∃ other ∈ s.calls.eraseIdx i, other.phase.Marked := by
  refine h.flag.imp_right ?_
  rintro ⟨other, hother, hothermarked⟩
  refine ⟨other, ((mem_iff_eraseIdx hcall).mp hother).resolve_left ?_, hothermarked⟩
  rintro rfl
  exact hmarked hothermarked

/-- A call goes on to another phase. -/
theorem Inv.advance {i : ℕ} {call : DetectionCall} (h : s.Inv) (hcall : s.calls[i]? = some call)
    {context' : Option ActionContext} {actions' : List RepoAction} {phase' : DetectionPhase}
    (honce : (DetectionState.detectedCommands { s with actions := actions' }).Nodup)
    (hactions : ∀ phase, Seen s.actions phase → Seen actions' phase) (hseen : Seen actions' phase')
    (hflag : (∀ context ∈ context', context.detectingActions = false) ∨ phase'.Marked ∨
      ∃ other ∈ s.calls.eraseIdx i, other.phase.Marked) :
    Inv ⟨context', actions', s.calls.set i { call with phase := phase' }⟩ := by
  obtain ⟨hi, -⟩ := List.getElem?_eq_some_iff.mp hcall
  refine ⟨honce, ?_, fun other hother => ?_⟩
  · rcases hflag with hidle | hmarked | ⟨other, hother, hmarked⟩
    · exact Or.inl hidle
    · exact Or.inr ⟨_, List.mem_set hi _, hmarked⟩
    · refine Or.inr ⟨other, List.mem_of_mem_eraseIdx (i := i) ?_, hmarked⟩
      show other ∈ (s.calls.set i _).eraseIdx i
      rw [List.eraseIdx_set_eq]
      exact hother
  · rcases List.mem_or_eq_of_mem_set hother with hother | rfl
    · exact hactions _ (h.seen other hother)
    · exact hseen

theorem Inv.storeOk {i : ℕ} {call : DetectionCall} (h : s.Inv) (hcall : s.calls[i]? = some call)
    (hcreate : s.MayCreate call.phase) {context' : Option ActionContext} {actions' : List RepoAction}
    {phase' : DetectionPhase} (hnext : s.storeCall call.entry call.phase = some (context', actions', phase')) :
    Inv ⟨context', actions', s.calls.set i { call with phase := phase' }⟩ := by
  have hseen := h.seen call (List.mem_of_getElem? hcall)
  have hothers := h.others hcall
  cases hphase : call.phase with
  | getContext =>
    rw [hphase] at hnext hothers
    rw [storeCall] at hnext
    split at hnext
    next context hcontext =>
      cases hnext
      exact h.advance hcall h.once (fun _ => id) (not_marked_check _ _).2 ((hothers id).imp_right Or.inr)
    next hcontext =>
      cases hnext
      exact h.advance hcall h.once (fun _ => id) trivial (Or.inl fun context hmem => by cases hmem)
  | insertContext =>
    rw [hphase] at hnext hothers
    rw [storeCall] at hnext
    split at hnext
    next context hcontext =>
      cases hnext
      exact h.advance hcall h.once (fun _ => id) trivial ((hothers id).imp_right Or.inr)
    next hcontext =>
      cases hnext
      refine h.advance hcall h.once (fun _ => id) (not_marked_check _ _).2 (Or.inl ?_)
      rintro context hmem
      cases hmem
      rfl
  | setDetecting =>
    rw [hphase] at hnext
    cases hnext
    exact h.advance hcall h.once (fun _ => id) trivial (Or.inr (Or.inl trivial))
  | listActions suggestions =>
    rw [hphase] at hnext
    cases hnext
    refine h.advance hcall h.once (fun _ => id) (seen_createNext le_rfl (fun action haction => ?_) _ _)
      (Or.inr (Or.inl (marked_createNext _ _ _ _)))
    exact List.mem_map_of_mem (List.mem_of_mem_take haction)
  | createAction listed existingCommands nextSortOrder suggestion rest =>
    rw [hphase] at hnext hseen hcreate
    cases hnext
    obtain ⟨hlisted, hexisting, hnew⟩ := hseen
    -- neither among the listed actions nor among those that came since
    have hfresh : ∀ action ∈ s.actions, action.command ≠ suggestion.command := by
      intro action haction heq
      rw [← List.take_append_drop listed s.actions] at haction
      rcases List.mem_append.mp haction with haction | haction
      · exact hnew (heq ▸ hexisting action haction)
      · exact hcreate action haction heq
    refine h.advance hcall ?_ (fun _ hold => hold.append _) (seen_createNext ?_ (fun action haction => ?_) _ _)
      (Or.inr (Or.inl (marked_createNext _ _ _ _)))
    · show (((s.actions ++ [_]).filter _).map _).Nodup
      rw [List.filter_append, List.map_append]
      refine List.nodup_append.mpr ⟨h.once, List.nodup_singleton _, ?_⟩
      rintro command hcommand _ hsingle rfl
      obtain ⟨action, haction, heq⟩ := List.mem_map.mp hcommand
      exact hfresh action (List.mem_of_mem_filter haction) (heq.trans (List.mem_singleton.mp hsingle))
    · rw [List.length_append]
      omega
    · rw [List.take_append_of_le_length hlisted] at haction
      exact List.mem_cons_of_mem _ (hexisting action haction)
  | markDetected =>
    rw [hphase] at hnext
    cases hnext
    refine h.advance hcall h.once (fun _ => id) ?_ (Or.inl ?_)
    · split <;> exact trivial
    · intro context hmem
      obtain ⟨-, -, rfl⟩ := Option.map_eq_some_iff.mp hmem
      rfl
  | runActions =>
    rw [hphase] at hnext hothers
    cases hnext
    exact h.advance hcall h.once (fun _ => id) trivial ((hothers id).imp_right Or.inr)
  | detect | returned refused =>
    rw [hphase] at hnext
    cases hnext

/-- Every timely step keeps the invariant. -/
theorem Inv.step {event : DetectionEvent} (h : s.Inv) (htimely : s.Timely event) (hstep : s.step event = some t) :
    t.Inv := by
  cases event with
  | call entry =>
    cases hstep
    refine ⟨h.once, h.flag.imp_right ?_, fun call hcall => ?_⟩
    · rintro ⟨call, hcall, hmarked⟩
      exact ⟨call, List.mem_append_left _ hcall, hmarked⟩
    · rcases List.mem_append.mp hcall with hcall | hcall
      · exact h.seen call hcall
      · rw [List.mem_singleton.mp hcall]
        exact trivial
  | store i ok =>
    obtain ⟨call, hcall, hmap⟩ := Option.bind_eq_some_iff.mp hstep
    obtain ⟨⟨context', actions', phase'⟩, hnext, hok⟩ := Option.map_eq_some_iff.mp hmap
    cases ok with
    | true =>
      cases hok
      exact h.storeOk hcall (htimely call hcall) hnext
    | false =>
      cases hok
      refine h.advance hcall h.once (fun _ => id) trivial ?_
      -- a failed store ends its call: if that had the mark, the flag is down or another call has it
      by_cases hmarked : call.phase.Marked
      · exact (htimely call hcall hmarked).imp_right Or.inr
      · exact (h.others hcall hmarked).imp_right Or.inr
  | detected i suggestions =>
    obtain ⟨call, hcall, hnext⟩ := Option.bind_eq_some_iff.mp hstep
    obtain ⟨-, hnext⟩ := Option.ite_none_right_eq_some.mp hnext
    cases hnext
    refine h.advance hcall h.once (fun _ => id) ?_ (Or.inr (Or.inl ?_))
    · split <;> exact trivial
    · split <;> exact trivial

/-- In a run of timely steps no command is created twice by a detection, and once all calls have returned no detection is
marked as being in progress. -/
theorem run_detects_once {events : List DetectionEvent} (honce : s.detectedCommands.Nodup) (hidle : s.Idle)
    (hcalls : s.calls = []) (hrun : run step s events = some t) (htimely : Along step Timely s events) :
    t.detectedCommands.Nodup ∧ ((∀ call ∈ t.calls, ∃ refused, call.phase = .returned refused) → t.Idle) := by
  have hinv : t.Inv := by
    refine run_invariant_along (fun _ _ _ h htimely hstep => Inv.step h htimely hstep) (s := s)
      ⟨honce, Or.inl hidle, fun call hcall => ?_⟩ htimely hrun
    rw [hcalls] at hcall
    exact absurd hcall List.not_mem_nil
  refine ⟨hinv.once, fun hreturned => hinv.flag.resolve_right ?_⟩
  rintro ⟨call, hcall, hmarked⟩
  obtain ⟨refused, hphase⟩ := hreturned call hcall
  rw [hphase] at hmarked
  exact hmarked

end

instance : (phase : DetectionPhase) → Decidable phase.Marked
  | .detect | .listActions _ | .createAction .. | .markDetected => .isTrue trivial
  | .getContext | .insertContext | .setDetecting | .runActions | .returned _ => .isFalse id

instance (s : DetectionState) : Decidable s.Idle :=
  inferInstanceAs (Decidable (∀ context ∈ s.context, context.detectingActions = false))

instance (s : DetectionState) : (phase : DetectionPhase) → Decidable (s.MayCreate phase)
  | .createAction listed _ _ suggestion _ =>
    inferInstanceAs (Decidable (∀ action ∈ s.actions.drop listed, action.command ≠ suggestion.command))
  | .getContext | .insertContext | .setDetecting | .detect | .listActions _ | .markDetected | .runActions
    | .returned _ => .isTrue trivial

instance (s : DetectionState) : (event : DetectionEvent) → Decidable (s.Timely event)
  | .store i true => inferInstanceAs (Decidable (∀ call ∈ s.calls[i]?, s.MayCreate call.phase))
  | .store i false => inferInstanceAs (Decidable (∀ call ∈ s.calls[i]?,
      call.phase.Marked → s.Idle ∨ ∃ other ∈ s.calls.eraseIdx i, other.phase.Marked))
  | .call _ | .detected .. => .isTrue trivial

def suggestBuild : List SuggestedAction := [⟨['B'], ['m'], .build, false⟩]

/-- Two prerun calls that list the actions before either creates one. -/
def overlap : List DetectionEvent :=
  [.call .runPrerunActions, .call .runPrerunActions, .store 0 true, .store 0 true, .store 1 true, .store 0 true,
    .store 1 true, .detected 0 (some suggestBuild), .detected 1 (some suggestBuild), .store 0 true, .store 1 true,
    .store 0 true, .store 1 true]

/-- A prerun call that fails to list the actions, and a detection after it. -/
def stuck : List DetectionEvent :=
  [.call .runPrerunActions, .store 0 true, .store 0 true, .store 0 true, .detected 0 none, .store 0 false,
    .call .detectRepoActions, .store 1 true]

/-- Both prerun calls create an action with the same command; and after a failed store call every later detection is
refused. -/
theorem run_detects_twice :
    (∃ s, run step {} overlap = some s ∧ s.detectedCommands = [['m'], ['m']] ∧ ¬ s.detectedCommands.Nodup) ∧
    ∃ s, run step {} stuck = some s ∧ s.calls.map (·.phase) = [.returned false, .returned true] ∧ ¬ s.Idle := by
  refine ⟨?_, ?_⟩
  · obtain ⟨s, hrun, hs⟩ := exists_run_of_any
      (show (run step {} overlap).any (fun s => decide (s.detectedCommands = [['m'], ['m']] ∧
        ¬ s.detectedCommands.Nodup)) = true by decide)
    exact ⟨s, hrun, of_decide_eq_true hs⟩
  · obtain ⟨s, hrun, hs⟩ := exists_run_of_any
      (show (run step {} stuck).any
        (fun s => decide (s.calls.map (·.phase) = [.returned false, .returned true] ∧ ¬ s.Idle)) = true by decide)
    exact ⟨s, hrun, of_decide_eq_true hs⟩

/-- Two prerun calls that detect at the same time, the second of which lists the actions of the first; and a failed call
while the other is to clear the flag. -/
theorem run_detects_once_overlapping :
    ∃ s, run step {} [.call .runPrerunActions, .call .runPrerunActions, .store 0 true, .store 0 true, .store 1 true,
        .store 0 true, .store 1 true, .detected 0 (some suggestBuild), .detected 1 (some suggestBuild), .store 0 true,
        .store 0 true, .store 1 true, .store 0 false, .store 1 true, .store 1 true] = some s ∧
      s.detectedCommands = [['m']] ∧ s.detectedCommands.Nodup ∧ s.Idle := by
  obtain ⟨s, hrun, hs⟩ := exists_run_of_any
    (show (run step {} [.call .runPrerunActions, .call .runPrerunActions, .store 0 true, .store 0 true, .store 1 true,
        .store 0 true, .store 1 true, .detected 0 (some suggestBuild), .detected 1 (some suggestBuild), .store 0 true,
        .store 0 true, .store 1 true, .store 0 false, .store 1 true, .store 1 true]).any
      (fun s => decide (s.detectedCommands = [['m']] ∧
        s.calls.map (·.phase) = [.returned false, .returned false])) = true by decide)
  obtain ⟨hcommands, hphases⟩ := of_decide_eq_true hs
  obtain ⟨honce, hidle⟩ := run_detects_once (s := {}) List.nodup_nil (fun context hcontext => by cases hcontext) rfl hrun
    (by decide)
  refine ⟨s, hrun, hcommands, honce, hidle fun call hcall => ⟨false, ?_⟩⟩
  have hmem := List.mem_map_of_mem (f := (·.phase)) hcall
  rw [hphases] at hmem
  simpa using hmem

end DetectionState

end Builderbot.Actions
