import Builderbot.DiffViewer.InlineDiff
import Builderbot.Lib.Run
import Builderbot.Lib.Table

/-!
# The autosave of comments

`createCommentAutosaveController` of `packages/diff-viewer/src/lib/state/commentAutosave.ts`, on a controller that is
not disposed. A step is what runs between two awaits: a call of the controller, the debounce timer, the completion
of a call of the backend, or the `finally` that clears `savePromise` after a save has returned.

The contents that the backend holds are part of the state, and so is a record of what was selected: a comment, or one
of the drafts that `reset` has begun. `reset` sets the content together with the selection, and `setContent` sets it
for what is selected, so that the selection is also what the content was set for.
-/

namespace Builderbot.DiffViewer

/-- The fields of a comment that the controller reads or sets. -/
structure Comment where
  id : ℕ
  content : JsString
  githubCommentId : Option ℕ := none
  githubCommentStale : Bool := false
deriving DecidableEq, Repr

inductive CommentSaveStatus where
  | idle
  | saving
  | saved
  | error
deriving DecidableEq, Repr

/-- What `saveLatest` catches. -/
inductive SaveError where
  | rejected
  | notCreated
  /-- The property of a comment that is null. -/
  | typeError
deriving DecidableEq, Repr

/-- What is being edited. -/
inductive Subject where
  | comment (id : ℕ)
  | draft (n : ℕ)
deriving DecidableEq, Repr

/-- A call of the backend. -/
inductive SaveCall where
  | add (content : JsString)
  | update (id : ℕ) (content : JsString)
deriving DecidableEq, Repr

/-- A call with the subject that was selected when it was made, and the comment that the subject was by then. -/
structure Save where
  call : SaveCall
  subject : Subject
  owner : Option ℕ
deriving DecidableEq, Repr

/-- Where a `saveLatest` is. -/
inductive SavePhase where
  | awaiting (save : Save)
  | returned
deriving DecidableEq, Repr

/-- The call that is pending. -/
def SavePhase.pending : SavePhase → Option Save
  | .awaiting save => some save
  | .returned => none

/-- How a call of the backend ends. -/
inductive SaveResult where
  | updated
  | created (comment : Comment)
  /-- `addComment` resolves to null. -/
  | nothing
  | rejected
deriving DecidableEq, Repr

structure CommentAutosave where
  comment : Option Comment := none
  content : JsString := []
  savedContent : JsString := []
  status : CommentSaveStatus := .idle
  error : Option SaveError := none
  /-- There is a `debounceTimer`. -/
  debounceTimer : Bool := false
  /-- There is a `savePromise`. -/
  savePromise : Bool := false
  saves : List SavePhase := []
  /-- The contents in the backend, by comment. -/
  persisted : Table ℕ JsString
  subject : Subject := .draft 0
  /-- The number of drafts so far. -/
  drafts : ℕ := 1
  /-- The comments that drafts have become. -/
  created : List (ℕ × ℕ) := []
  /-- All calls of the backend. -/
  calls : List Save := []

/-- `locallyUpdatedComment`. -/
def locallyUpdatedComment (comment : Comment) (content : JsString) : Comment :=
  { comment with
    content
    githubCommentStale := comment.githubCommentId.isSome || comment.githubCommentStale }

/-- `content.trim().length === 0`. -/
def blank (content : JsString) : Bool := (trim content).isEmpty

namespace CommentAutosave

variable (s : CommentAutosave)

/-- The comment that the subject is by now. -/
def owner : Option ℕ :=
  match s.subject with
  | .comment id => some id
  | .draft n => s.created.lookup n

def needsSave : Bool :=
  match s.comment with
  | none => !blank s.content
  | some _ => decide (s.content ≠ s.savedContent)

/-- `comment ? 'saved' : 'idle'`. -/
def settledStatus : CommentSaveStatus := if s.comment.isSome then .saved else .idle

def updateSettledStatus : CommentAutosave :=
  if s.status = .error ∨ s.status = .saving then s else { s with status := s.settledStatus }

/-- The call that the loop makes for the content. -/
def nextCall : SaveCall :=
  match s.comment with
  | none => .add s.content
  | some comment => .update comment.id s.content

/-- The head of the loop: it makes a call if there is something to save, and otherwise the save returns. A draft that
needs saving is not blank, so the test for a blank draft inside the loop never succeeds. -/
def loop : SavePhase × CommentAutosave :=
  if s.needsSave then
    let save := ⟨s.nextCall, s.subject, s.owner⟩
    (.awaiting save, { s with calls := s.calls ++ [save] })
  else (.returned, s.updateSettledStatus)

/-- `saveLatest` up to its first await. -/
def saveLatest : SavePhase × CommentAutosave :=
  if s.needsSave then { s with debounceTimer := false, status := .saving, error := none }.loop
  else (.returned, { s with debounceTimer := false }.updateSettledStatus)

def startSave : CommentAutosave :=
  if s.savePromise then s
  else { s.saveLatest.2 with savePromise := true, saves := s.saves ++ [s.saveLatest.1] }

def scheduleSave : CommentAutosave :=
  if s.needsSave then
    { s with
      status := if s.status = .saving then .saving else .idle
      error := if s.status = .saving then s.error else none
      debounceTimer := !s.savePromise }
  else
    { s with
      status := if s.status = .saving then .saving else s.settledStatus
      error := if s.status = .saving then s.error else none
      debounceTimer := false }

def setContent (nextContent : JsString) : CommentAutosave := { s with content := nextContent }.scheduleSave

def reset (nextComment : Option Comment) (nextContent : JsString) : CommentAutosave :=
  { s with
    debounceTimer := false
    comment := nextComment
    content := nextContent
    savedContent := if nextComment.isSome then nextContent else []
    status := if nextComment.isSome then .saved else .idle
    error := none
    subject := match nextComment with
      | some comment => .comment comment.id
      | none => .draft s.drafts
    drafts := if nextComment.isSome then s.drafts else s.drafts + 1 }

def updateExternalComment (nextComment : Comment) : CommentAutosave :=
  if s.comment.map (·.id) = some nextComment.id then { s with comment := some { nextComment with content := s.content } }
  else s

/-- The rest of the loop body after a call that has saved the content. -/
def afterSave (targetContent : JsString) : CommentAutosave :=
  let saved := { s with savedContent := targetContent }
  { saved with status := if saved.needsSave then .saving else .saved, error := none }

/-- The `catch`. -/
def fail (error : SaveError) : SavePhase × CommentAutosave := (.returned, { s with status := .error, error := some error })

/-- What the loop does when its call ends. -/
def resume (save : Save) : SaveResult → Option (SavePhase × CommentAutosave)
  | .rejected => some (s.fail .rejected)
  | .nothing =>
    match save.call with
    | .add _ => some (s.fail .notCreated)
    | .update .. => none
  | .created comment =>
    match save.call with
    | .add content =>
      if (s.persisted.lookup comment.id).isSome then none
      else some ({ s with
        persisted := s.persisted.insert comment.id content
        created := match save.subject with
          | .draft n => (n, comment.id) :: s.created
          | .comment _ => s.created
        comment := some comment }.afterSave content).loop
    | .update .. => none
  | .updated =>
    match save.call with
    | .update id content =>
      let stored := { s with persisted := s.persisted.insert id content }
      match s.comment with
      | none => some (stored.fail .typeError)
      | some comment =>
        some ({ stored with comment := some (locallyUpdatedComment comment content) }.afterSave content).loop
    | .add _ => none

end CommentAutosave

inductive AutosaveEvent where
  | setContent (content : JsString)
  | reset (comment : Option Comment) (content : JsString)
  | updateExternalComment (comment : Comment)
  | flush
  | timer
  /-- The call of the save at `i` ends. -/
  | complete (i : ℕ) (result : SaveResult)
  /-- The `finally` of the save at `i`. -/
  | finish (i : ℕ)
deriving DecidableEq, Repr

namespace CommentAutosave

def step (s : CommentAutosave) : AutosaveEvent → Option CommentAutosave
  | .setContent content => some (s.setContent content)
  | .reset comment content => some (s.reset comment content)
  | .updateExternalComment comment => some (s.updateExternalComment comment)
  | .flush => some s.startSave
  | .timer => if s.debounceTimer then some { s with debounceTimer := false }.startSave else none
  | .complete i result =>
    match s.saves[i]? with
    | some (.awaiting save) =>
      (s.resume save result).map fun next => { next.2 with saves := s.saves.set i next.1 }
    | _ => none
  | .finish i =>
    match s.saves[i]? with
    | some .returned => some { s with savePromise := false, saves := s.saves.eraseIdx i }
    | _ => none

/-- `createCommentAutosaveController` over a backend. -/
def create (persisted : Table ℕ JsString) (comment : Option Comment) (content : JsString) : CommentAutosave :=
  CommentAutosave.reset { persisted } comment content

/-! ## What the controller is for -/

/-- A call of the backend is pending. -/
def calling (s : CommentAutosave) : Bool := s.saves.any (·.pending.isSome)

variable {s t : CommentAutosave}

/-- The content is the one that the backend has, or that of a blank draft. -/
def Persisted (s : CommentAutosave) : Prop :=
  match s.owner with
  | none => blank s.content = true
  | some id => s.persisted.lookup id = some s.content

end CommentAutosave

/-- The comment of a call; `addComment` has none. -/
def SaveCall.target : SaveCall → Option ℕ
  | .add _ => none
  | .update id _ => some id

namespace CommentAutosave

variable {s t : CommentAutosave}

structure Sound (s : CommentAutosave) : Prop where
  serial : s.saves.length ≤ 1
  /-- A call is for what was selected: `addComment` for a draft that is no comment yet, `updateComment` for the
  comment. -/
  attributed : ∀ save ∈ s.calls, save.call.target = save.owner
  /-- No draft becomes two comments. -/
  once : (s.created.map Prod.fst).Nodup
  settled : s.debounceTimer = false → s.calling = false → s.status = .error ∨ s.Persisted

/-- A selection comes with its persisted content, and a draft begins blank. -/
def Loaded (persisted : Table ℕ JsString) (comment : Option Comment) (content : JsString) : Prop :=
  match comment with
  | none => blank content = true
  | some comment => persisted.lookup comment.id = some content

/-- What the call was made for is still selected. -/
def StillSelected (s : CommentAutosave) (save : Save) : SaveResult → Prop
  | .created _ => s.subject = save.subject
  | .updated => ∀ comment ∈ s.comment, save.call.target = some comment.id
  | .nothing | .rejected => True

/-- The condition on a step. -/
def Orderly (s : CommentAutosave) : AutosaveEvent → Prop
  | .setContent content => s.savePromise = true → s.calling = false → needsSave { s with content } = false
  | .reset comment content => Loaded s.persisted comment content
  | .complete i result => ∀ save ∈ s.saves[i]?.bind SavePhase.pending, s.StillSelected save result
  | .updateExternalComment _ | .flush | .timer | .finish _ => True

/-! ## The invariant -/

structure Core (s : CommentAutosave) : Prop where
  owner : s.owner = s.comment.map (·.id)
  saved : ∀ comment ∈ s.comment, s.persisted.lookup comment.id = some s.savedContent
  attributed : ∀ save ∈ s.calls, save.call.target = save.owner
  once : (s.created.map Prod.fst).Nodup
  createdBelow : ∀ p ∈ s.created, p.1 < s.drafts
  subjectBelow : ∀ n, s.subject = .draft n → n < s.drafts

/-- A call on the way. -/
structure Waits (s : CommentAutosave) (save : Save) : Prop where
  draft : save.call.target = none → ∃ n, save.subject = .draft n ∧ n < s.drafts
  adding : save.call.target = none → save.subject = s.subject → s.comment = none

structure Inv (s : CommentAutosave) : Prop where
  core : s.Core
  running : (s.savePromise = false ∧ s.saves = []) ∨
    (s.savePromise = true ∧ s.debounceTimer = false ∧
      ∃ phase, s.saves = [phase] ∧ ∀ save, phase = .awaiting save → s.Waits save)
  scheduled : s.needsSave = true → s.status = .error ∨ s.debounceTimer = true ∨ s.calling = true

theorem Inv.sound (h : s.Inv) : s.Sound := by
  refine ⟨?_, h.core.attributed, h.core.once, fun htimer hcalling => ?_⟩
  · rcases h.running with ⟨-, hsaves⟩ | ⟨-, -, phase, hsaves, -⟩
    · rw [hsaves]
      exact Nat.zero_le 1
    · rw [hsaves]
      exact Nat.le_refl 1
  · by_cases hneeds : s.needsSave = true
    · rcases h.scheduled hneeds with herror | hpending | hpending
      · exact .inl herror
      · rw [htimer] at hpending
        cases hpending
      · rw [hcalling] at hpending
        cases hpending
    · refine .inr ?_
      have howner := h.core.owner
      rw [Persisted, howner]
      rw [needsSave] at hneeds
      cases hcomment : s.comment with
      | none =>
        rw [hcomment] at hneeds
        simpa using hneeds
      | some comment =>
        rw [hcomment] at hneeds
        have hsame : s.content = s.savedContent := by simpa using hneeds
        rw [hsame]
        exact h.core.saved comment hcomment

/-! ## The loop -/

/-- The fields that the loop leaves alone do not appear. -/
theorem loop_eq : (s.needsSave = true ∧
      s.loop = (.awaiting ⟨s.nextCall, s.subject, s.owner⟩,
        { s with calls := s.calls ++ [⟨s.nextCall, s.subject, s.owner⟩] })) ∨
    (s.needsSave = false ∧ ∃ status, s.loop = (.returned, { s with status })) := by
  cases hneeds : s.needsSave with
  | true => exact .inl ⟨rfl, by rw [loop, if_pos hneeds]⟩
  | false =>
    refine .inr ⟨rfl, ?_⟩
    rw [loop, if_neg (by rw [hneeds]; exact Bool.false_ne_true), updateSettledStatus]
    split
    · exact ⟨s.status, rfl⟩
    · exact ⟨s.settledStatus, rfl⟩

theorem Core.target_nextCall (h : s.Core) : s.nextCall.target = s.owner := by
  rw [h.owner, nextCall]
  cases s.comment <;> rfl

/-- A call that has just been made waits. -/
theorem Core.waits (h : s.Core) : s.Waits ⟨s.nextCall, s.subject, s.owner⟩ := by
  refine ⟨fun htarget => ?_, fun htarget _ => ?_⟩
  · have hnone : s.owner = none := h.target_nextCall.symm.trans htarget
    cases hsubject : s.subject with
    | comment id =>
      rw [CommentAutosave.owner, hsubject] at hnone
      cases hnone
    | draft n => exact ⟨n, rfl, h.subjectBelow n hsubject⟩
  · have hnone : s.owner = none := h.target_nextCall.symm.trans htarget
    rw [h.owner] at hnone
    exact Option.map_eq_none_iff.mp hnone

/-- The loop leaves the controller with a call under way, or with nothing to save. -/
theorem Core.inv_loop (h : s.Core) (htimer : s.debounceTimer = false) :
    Inv { s.loop.2 with savePromise := true, saves := [s.loop.1] } := by
  rcases loop_eq (s := s) with ⟨-, hloop⟩ | ⟨hneeds, status, hloop⟩
  · rw [hloop]
    have hwaits := h.waits
    have hcore : Core { s with calls := s.calls ++ [⟨s.nextCall, s.subject, s.owner⟩] } := by
      refine ⟨h.owner, h.saved, fun save hsave => ?_, h.once, h.createdBelow, h.subjectBelow⟩
      rcases List.mem_append.mp hsave with hsave | hsave
      · exact h.attributed save hsave
      · rw [List.mem_singleton.mp hsave]
        exact h.target_nextCall
    refine ⟨⟨hcore.owner, hcore.saved, hcore.attributed, hcore.once, hcore.createdBelow, hcore.subjectBelow⟩,
      .inr ⟨rfl, htimer, _, rfl, fun save hsave => ?_⟩, fun _ => .inr (.inr rfl)⟩
    cases hsave
    exact ⟨hwaits.draft, hwaits.adding⟩
  · rw [hloop]
    refine ⟨⟨h.owner, h.saved, h.attributed, h.once, h.createdBelow, h.subjectBelow⟩,
      .inr ⟨rfl, htimer, _, rfl, fun save hsave => by cases hsave⟩, fun hneeds' => ?_⟩
    have hsame : s.needsSave = true := hneeds'
    rw [hneeds] at hsame
    cases hsame

/-! ## Steps -/

theorem Inv.startSave (h : s.Inv) : s.startSave.Inv := by
  rw [CommentAutosave.startSave]
  rcases h.running with ⟨hpromise, hsaves⟩ | ⟨hpromise, -⟩
  · rw [hpromise, if_neg Bool.false_ne_true, hsaves, List.nil_append, saveLatest]
    have hc := h.core
    split
    next =>
      have hcore : Core { s with debounceTimer := false, status := .saving, error := none } :=
        ⟨hc.owner, hc.saved, hc.attributed, hc.once, hc.createdBelow, hc.subjectBelow⟩
      exact hcore.inv_loop rfl
    next hneeds =>
      -- the save returns at once
      have hcore : Core { s with debounceTimer := false } :=
        ⟨hc.owner, hc.saved, hc.attributed, hc.once, hc.createdBelow, hc.subjectBelow⟩
      have hloop : loop { s with debounceTimer := false }
          = (.returned, { s with debounceTimer := false }.updateSettledStatus) := by
        rw [loop]
        exact if_neg hneeds
      rw [← hloop]
      exact hcore.inv_loop rfl
  · rw [hpromise, if_pos rfl]
    exact h

theorem scheduleSave_eq : ∃ status error, s.scheduleSave
    = { s with status, error, debounceTimer := s.needsSave && !s.savePromise } := by
  rw [scheduleSave]
  split
  next hneeds => exact ⟨_, _, by rw [hneeds, Bool.true_and]⟩
  next hneeds => exact ⟨_, _, by rw [Bool.eq_false_iff.mpr hneeds, Bool.false_and]⟩

theorem Inv.setContent (h : s.Inv) {content : JsString} (horderly : s.Orderly (.setContent content)) :
    (s.setContent content).Inv := by
  obtain ⟨status, error, hschedule⟩ := scheduleSave_eq (s := { s with content })
  rw [CommentAutosave.setContent, hschedule]
  have hc := h.core
  refine ⟨⟨hc.owner, hc.saved, hc.attributed, hc.once, hc.createdBelow, hc.subjectBelow⟩, ?_, fun hneeds => ?_⟩
  · rcases h.running with hidle | ⟨hpromise, -, phase, hsaves, hwaits⟩
    · exact .inl hidle
    · refine .inr ⟨hpromise, ?_, phase, hsaves, fun save hsave => ⟨(hwaits save hsave).draft, (hwaits save hsave).adding⟩⟩
      show (needsSave { s with content } && !s.savePromise) = false
      rw [hpromise, Bool.not_true, Bool.and_false]
  · have hneeds' : needsSave { s with content } = true := hneeds
    refine .inr ?_
    cases hpromise : s.savePromise with
    | false =>
      refine .inl ?_
      show (needsSave { s with content } && !false) = true
      rw [hneeds', Bool.not_false, Bool.and_true]
    | true =>
      refine .inr ?_
      -- a save that has returned would not come back to the content
      cases hcalling : s.calling with
      | true => exact hcalling
      | false =>
        rw [horderly hpromise hcalling] at hneeds'
        cases hneeds'

theorem lookup_of_below {created : List (ℕ × ℕ)} {n : ℕ} (h : ∀ p ∈ created, p.1 < n) : created.lookup n = none := by
  rw [List.lookup_eq_none_iff]
  intro p hp
  exact bne_iff_ne.mpr (Nat.ne_of_gt (h p hp))

theorem Inv.reset (h : s.Inv) {comment : Option Comment} {content : JsString} (hloaded : Loaded s.persisted comment content) :
    (s.reset comment content).Inv := by
  have hc := h.core
  cases comment with
  -- a new draft gets a number that no comment has
  | none =>
    refine ⟨⟨?_, fun c hcomment => (by cases hcomment), hc.attributed, hc.once, fun p hp => ?_, fun n hn => ?_⟩, ?_,
      fun hneeds => ?_⟩
    · exact lookup_of_below hc.createdBelow
    · exact Nat.lt_succ_of_lt (hc.createdBelow p hp)
    · cases hn
      exact Nat.lt_succ_self _
    · rcases h.running with hidle | ⟨hpromise, -, phase, hsaves, hwaits⟩
      · exact .inl hidle
      · refine .inr ⟨hpromise, rfl, phase, hsaves, fun save hsave => ⟨fun htarget => ?_, fun _ _ => rfl⟩⟩
        obtain ⟨n, hn, hlt⟩ := (hwaits save hsave).draft htarget
        exact ⟨n, hn, Nat.lt_succ_of_lt hlt⟩
    · have hneeds' : (!blank content) = true := hneeds
      rw [show blank content = true from hloaded] at hneeds'
      cases hneeds'
  | some c =>
    refine ⟨⟨rfl, fun c' hcomment => ?_, hc.attributed, hc.once, hc.createdBelow, fun n hn => (by cases hn)⟩, ?_,
      fun hneeds => ?_⟩
    · cases hcomment
      exact hloaded
    · rcases h.running with hidle | ⟨hpromise, -, phase, hsaves, hwaits⟩
      · exact .inl hidle
      · refine .inr ⟨hpromise, rfl, phase, hsaves, fun save hsave => ⟨(hwaits save hsave).draft, fun htarget hsame => ?_⟩⟩
        obtain ⟨n, hn, -⟩ := (hwaits save hsave).draft htarget
        rw [hn] at hsame
        cases hsame
    · have hneeds' : decide (content ≠ content) = true := hneeds
      exact absurd rfl (of_decide_eq_true hneeds')

theorem Inv.updateExternalComment (h : s.Inv) (nextComment : Comment) : (s.updateExternalComment nextComment).Inv := by
  rw [CommentAutosave.updateExternalComment]
  split
  next hid =>
    obtain ⟨comment, hcomment, hsame⟩ := Option.map_eq_some_iff.mp hid
    have hc := h.core
    refine ⟨⟨hc.owner.trans hid, fun c hnext => ?_, hc.attributed, hc.once, hc.createdBelow, hc.subjectBelow⟩, ?_,
      fun hneeds => h.scheduled ?_⟩
    · cases hnext
      exact hsame ▸ hc.saved comment hcomment
    · rcases h.running with hidle | ⟨hpromise, htimer, phase, hsaves, hwaits⟩
      · exact .inl hidle
      · refine .inr ⟨hpromise, htimer, phase, hsaves, fun save hsave => ⟨(hwaits save hsave).draft, fun htarget hsubject => ?_⟩⟩
        have hnone := (hwaits save hsave).adding htarget hsubject
        rw [hcomment] at hnone
        cases hnone
    · rw [needsSave, hcomment]
      exact hneeds
  next => exact h

/-- A call that fails leaves the status `error`. -/
theorem Core.inv_fail (h : s.Core) (htimer : s.debounceTimer = false) (error : SaveError) :
    Inv { (s.fail error).2 with savePromise := true, saves := [(s.fail error).1] } :=
  ⟨⟨h.owner, h.saved, h.attributed, h.once, h.createdBelow, h.subjectBelow⟩,
    .inr ⟨rfl, htimer, _, rfl, fun save hsave => by cases hsave⟩, fun _ => .inl rfl⟩

/-- `addComment` has made the draft a comment. -/
theorem Core.created (h : s.Core) {save : Save} (hwaits : s.Waits save) {content : JsString}
    (hcall : save.call = .add content) (hsubject : s.subject = save.subject) (comment : Comment) :
    ∃ n, save.subject = .draft n ∧ Core { s with
      persisted := s.persisted.insert comment.id content
      created := (n, comment.id) :: s.created
      comment := some comment
      savedContent := content } := by
  have htarget : save.call.target = none := by rw [hcall, SaveCall.target]
  obtain ⟨n, hn, hlt⟩ := hwaits.draft htarget
  have hnone := hwaits.adding htarget hsubject.symm
  have hlookup : s.created.lookup n = none := by
    have howner := h.owner
    rw [CommentAutosave.owner, hsubject, hn, hnone] at howner
    exact howner
  refine ⟨n, hn, ?_, fun c hc => ?_, h.attributed, ?_, fun p hp => ?_, h.subjectBelow⟩
  · rw [CommentAutosave.owner]
    dsimp only
    rw [hsubject, hn]
    exact List.lookup_cons_self
  · cases hc
    exact AList.lookup_insert _
  · rw [List.map_cons, List.nodup_cons]
    refine ⟨fun hmem => ?_, h.once⟩
    obtain ⟨p, hp, hpn⟩ := List.mem_map.mp hmem
    have hne := List.lookup_eq_none_iff.mp hlookup p hp
    exact bne_iff_ne.mp hne hpn.symm
  · rcases List.mem_cons.mp hp with rfl | hp
    · exact hlt
    · exact h.createdBelow p hp

/-- `updateComment` has written the content of the selected comment. -/
theorem Core.updated (h : s.Core) {comment : Comment} (hcomment : s.comment = some comment) (content : JsString) :
    Core { s with
      persisted := s.persisted.insert comment.id content
      comment := some (locallyUpdatedComment comment content)
      savedContent := content } := by
  refine ⟨?_, fun c hc => ?_, h.attributed, h.once, h.createdBelow, h.subjectBelow⟩
  · have howner := h.owner
    rw [hcomment] at howner
    exact howner
  · cases hc
    exact AList.lookup_insert _

theorem Core.afterSave {targetContent : JsString} (h : Core { s with savedContent := targetContent }) :
    (s.afterSave targetContent).Core :=
  ⟨h.owner, h.saved, h.attributed, h.once, h.createdBelow, h.subjectBelow⟩

theorem Inv.complete (h : s.Inv) {i : ℕ} {result : SaveResult} (horderly : s.Orderly (.complete i result))
    (hstep : s.step (.complete i result) = some t) : t.Inv := by
  rw [step] at hstep
  split at hstep
  case h_2 => cases hstep
  case h_1 save hsave =>
    obtain ⟨next, hresume, rfl⟩ := Option.map_eq_some_iff.mp hstep
    have hselected := horderly save (by rw [hsave]; rfl)
    -- the save is the only one
    rcases h.running with ⟨-, hsaves⟩ | ⟨hpromise, htimer, phase, hsaves, hwaits⟩
    · rw [hsaves] at hsave
      cases hsave
    rw [hsaves] at hsave
    obtain ⟨hlt, hphase⟩ := List.getElem?_eq_some_iff.mp hsave
    obtain rfl : i = 0 := by
      rw [List.length_singleton] at hlt
      omega
    have hwaits' := hwaits save hphase
    have hset (next : SavePhase × CommentAutosave) (hnext : next.2.savePromise = true)
        (hinv : Inv { next.2 with savePromise := true, saves := [next.1] }) :
        Inv { next.2 with saves := s.saves.set 0 next.1 } := by
      rw [hsaves, List.set_cons_zero]
      rw [← hnext] at hinv
      exact hinv
    cases result with
    | rejected =>
      cases hresume
      exact hset _ hpromise (h.core.inv_fail htimer .rejected)
    | nothing =>
      rw [resume] at hresume
      split at hresume
      · cases hresume
        exact hset _ hpromise (h.core.inv_fail htimer .notCreated)
      · cases hresume
    | created comment =>
      rw [resume] at hresume
      split at hresume
      next content hcall =>
        split at hresume
        · cases hresume
        · cases hresume
          obtain ⟨n, hn, hcore⟩ := h.core.created hwaits' hcall hselected comment
          rw [hn]
          refine hset _ ?_ (Core.inv_loop (Core.afterSave hcore) htimer)
          rcases loop_eq (s := CommentAutosave.afterSave { s with
              persisted := s.persisted.insert comment.id content, created := (n, comment.id) :: s.created,
              comment := some comment } content) with ⟨-, hloop⟩ | ⟨-, status, hloop⟩
          · rw [hloop]
            exact hpromise
          · rw [hloop]
            exact hpromise
      next => cases hresume
    | updated =>
      rw [resume] at hresume
      split at hresume
      next id content hcall =>
        dsimp only at hresume
        split at hresume
        next hcomment =>
          cases hresume
          have hcore : Core { s with persisted := s.persisted.insert id content } :=
            ⟨h.core.owner, fun c hc => (by rw [show s.comment = some c from hc] at hcomment; cases hcomment),
              h.core.attributed, h.core.once, h.core.createdBelow, h.core.subjectBelow⟩
          exact hset _ hpromise (hcore.inv_fail htimer .typeError)
        next comment hcomment =>
          cases hresume
          have hid : id = comment.id := by
            have htarget := hselected comment hcomment
            rw [hcall, SaveCall.target, Option.some.injEq] at htarget
            exact htarget
          subst hid
          refine hset _ ?_ (Core.inv_loop (Core.afterSave (h.core.updated hcomment content)) htimer)
          rcases loop_eq (s := CommentAutosave.afterSave { s with
              persisted := s.persisted.insert comment.id content,
              comment := some (locallyUpdatedComment comment content) } content) with ⟨-, hloop⟩ | ⟨-, status, hloop⟩
          · rw [hloop]
            exact hpromise
          · rw [hloop]
            exact hpromise
      next => cases hresume

theorem Inv.finish (h : s.Inv) {i : ℕ} (hstep : s.step (.finish i) = some t) : t.Inv := by
  rw [step] at hstep
  split at hstep
  case h_2 => cases hstep
  case h_1 hreturned =>
    cases hstep
    rcases h.running with ⟨-, hsaves⟩ | ⟨-, -, phase, hsaves, -⟩
    · rw [hsaves] at hreturned
      cases hreturned
    rw [hsaves] at hreturned
    obtain ⟨hlt, hphase⟩ := List.getElem?_eq_some_iff.mp hreturned
    -- only one save runs at a time
    obtain rfl : i = 0 := by
      rw [List.length_singleton] at hlt
      omega
    have hphase' : phase = .returned := hphase
    have hnone : s.calling = false := by
      rw [calling, hsaves, hphase']
      rfl
    have hc := h.core
    refine ⟨⟨hc.owner, hc.saved, hc.attributed, hc.once, hc.createdBelow, hc.subjectBelow⟩, .inl ⟨rfl, ?_⟩,
      fun hneeds => ?_⟩
    · show s.saves.eraseIdx 0 = []
      rw [hsaves]
      rfl
    · rcases h.scheduled hneeds with herror | htimer | hcalling
      · exact .inl herror
      · exact .inr (.inl htimer)
      · rw [hnone] at hcalling
        cases hcalling

theorem Inv.step (h : s.Inv) {event : AutosaveEvent} (horderly : s.Orderly event) (hstep : s.step event = some t) :
    t.Inv := by
  cases event with
  | setContent content =>
    cases hstep
    exact h.setContent horderly
  | reset comment content =>
    cases hstep
    exact h.reset horderly
  | updateExternalComment comment =>
    cases hstep
    exact h.updateExternalComment comment
  | flush =>
    cases hstep
    exact h.startSave
  | timer =>
    rw [CommentAutosave.step] at hstep
    split at hstep
    next htimer =>
      cases hstep
      -- a timer runs only while there is no promise, and the save begins at once
      have hidle : s.savePromise = false := by
        rcases h.running with ⟨hpromise, -⟩ | ⟨-, hfalse, -⟩
        · exact hpromise
        · rw [hfalse] at htimer
          cases htimer
      have hsame : CommentAutosave.startSave { s with debounceTimer := false } = s.startSave := by
        have hlatest : saveLatest { s with debounceTimer := false } = s.saveLatest := by
          rw [saveLatest, saveLatest]
          rfl
        rw [CommentAutosave.startSave, CommentAutosave.startSave, hlatest, hidle, if_neg Bool.false_ne_true,
          if_neg Bool.false_ne_true]
      rw [hsame]
      exact h.startSave
    next => cases hstep
  | complete i result => exact h.complete horderly hstep
  | finish i => exact h.finish hstep

theorem inv_create {persisted : Table ℕ JsString} {comment : Option Comment} {content : JsString}
    (hloaded : Loaded persisted comment content) : (create persisted comment content).Inv := by
  have hblank : Inv { persisted } := by
    refine ⟨⟨rfl, fun c hc => (by cases hc), fun save hsave => absurd hsave List.not_mem_nil, List.nodup_nil,
      fun p hp => absurd hp List.not_mem_nil, fun n hn => ?_⟩, .inl ⟨rfl, rfl⟩, fun hneeds => ?_⟩
    · cases hn
      exact Nat.zero_lt_one
    · cases hneeds
  exact hblank.reset hloaded

/-- In a run of orderly steps, saves do not overlap, every call is for what was selected, no draft becomes two
comments, and what is left without a timer or a call is saved or has the status `error`. -/
theorem run_sound {persisted : Table ℕ JsString} {comment : Option Comment} {content : JsString}
    {events : List AutosaveEvent} (hloaded : Loaded persisted comment content)
    (hrun : run step (create persisted comment content) events = some s)
    (horderly : Along step Orderly (create persisted comment content) events) : s.Sound :=
  (run_invariant_along (fun _ _ _ h horderly hstep => Inv.step h horderly hstep) (inv_create hloaded) horderly hrun).sound

instance (persisted : Table ℕ JsString) (content : JsString) :
    (comment : Option Comment) → Decidable (Loaded persisted comment content)
  | none => inferInstanceAs (Decidable (blank content = true))
  | some comment => inferInstanceAs (Decidable (persisted.lookup comment.id = some content))

instance (s : CommentAutosave) (save : Save) : (result : SaveResult) → Decidable (s.StillSelected save result)
  | .created _ => inferInstanceAs (Decidable (s.subject = save.subject))
  | .updated => inferInstanceAs (Decidable (∀ comment ∈ s.comment, save.call.target = some comment.id))
  | .nothing | .rejected => .isTrue trivial

instance (s : CommentAutosave) : (event : AutosaveEvent) → Decidable (s.Orderly event)
  | .setContent content => inferInstanceAs (Decidable
      (s.savePromise = true → s.calling = false → needsSave { s with content } = false))
  | .reset comment content => inferInstanceAs (Decidable (Loaded s.persisted comment content))
  | .complete i result => inferInstanceAs (Decidable
      (∀ save ∈ s.saves[i]?.bind SavePhase.pending, s.StillSelected save result))
  | .updateExternalComment _ | .flush | .timer | .finish _ => .isTrue trivial

/-- The letters `a` and `b`. -/
def letterA : JsString := [97]
def letterB : JsString := [98]

/-- The comment of the first draft gets the text of the second one; and a text that is typed right after a save that
had nothing to do is never saved. -/
theorem run_unsound :
    (∃ s, run step (create ∅ none [])
        [.setContent letterA, .flush, .reset none [], .setContent letterB,
          .complete 0 (.created { id := 1, content := letterA })] = some s ∧
      ⟨.update 1 letterB, .draft 2, none⟩ ∈ s.calls ∧ ¬ s.Sound) ∧
    ∃ s, run step (create ∅ none []) [.flush, .setContent letterA, .finish 0] = some s ∧
      (s.debounceTimer = false ∧ s.calling = false) ∧ s.status = .idle ∧ ¬ s.Sound := by
  refine ⟨?_, ?_⟩
  · obtain ⟨s, hrun, hs⟩ := exists_run_of_any
      (show (run step (create ∅ none [])
          [.setContent letterA, .flush, .reset none [], .setContent letterB,
            .complete 0 (.created { id := 1, content := letterA })]).any
        (fun s => decide (⟨.update 1 letterB, .draft 2, none⟩ ∈ s.calls)) = true by decide)
    have hcall := of_decide_eq_true hs
    refine ⟨s, hrun, hcall, fun hsound => ?_⟩
    cases hsound.attributed _ hcall
  · obtain ⟨s, hrun, hs⟩ := exists_run_of_any
      (show (run step (create ∅ none []) [.flush, .setContent letterA, .finish 0]).any
        (fun s => decide ((s.debounceTimer = false ∧ s.calling = false) ∧ s.status = .idle ∧
          s.owner = none ∧ blank s.content = false)) = true by decide)
    obtain ⟨hquiet, hidle, howner, hblank⟩ := of_decide_eq_true hs
    refine ⟨s, hrun, hquiet, hidle, fun hsound => ?_⟩
    rcases hsound.settled hquiet.1 hquiet.2 with herror | hpersisted
    · rw [hidle] at herror
      cases herror
    · rw [Persisted, howner] at hpersisted
      dsimp only at hpersisted
      rw [hblank] at hpersisted
      cases hpersisted

/-- A text that grows while its draft becomes a comment. -/
theorem run_sound_typing :
    ∃ s, run step (create ∅ none [])
        [.setContent letterA, .timer, .setContent letterB, .complete 0 (.created { id := 1, content := letterA }),
          .complete 0 .updated, .finish 0] = some s ∧ s.Sound := by
  obtain ⟨s, hrun, -⟩ := exists_run_of_any
    (show (run step (create ∅ none [])
        [.setContent letterA, .timer, .setContent letterB, .complete 0 (.created { id := 1, content := letterA }),
          .complete 0 .updated, .finish 0]).any (fun _ => true) = true by decide)
  exact ⟨s, hrun, run_sound (by decide) hrun (by decide)⟩

end CommentAutosave

end Builderbot.DiffViewer
