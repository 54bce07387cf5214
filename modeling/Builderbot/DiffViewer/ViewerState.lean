import Builderbot.Git.Types
import Builderbot.Lib.Run
import Builderbot.Lib.Table

/-!
# The state of the diff viewer

`createDiffViewerState` of `packages/diff-viewer/src/lib/state/diffViewerState.svelte.ts`: the list of files of a
context (a scope and a commit), the selected file, and a cache of the diffs that have been loaded.

A step is what runs between two awaits: a call of one of the actions, or the response to a call of the backend. The
responses come in any order. `diffOf` is what the backend answers for the branch of the instance.
-/

namespace Builderbot.DiffViewer

open Git (Text FileDiff FileDiffSummary)

inductive DiffScope where
  | branch
  | commit
deriving DecidableEq, Repr

/-- A call of `getDiffFiles`, by the `loadFiles` of a generation. -/
structure FilesRequest where
  generation : ℕ
  commitSha : Option Text
  scope : DiffScope
deriving DecidableEq, Repr

/-- A call of `getFileDiff`. `loader` is the generation of the `loadFiles` that waits for it. -/
structure DiffRequest where
  commitSha : Text
  scope : DiffScope
  path : Text
  loader : Option ℕ
deriving DecidableEq, Repr

/-- What `getDiffFiles` returns or throws. -/
inductive FilesResponse where
  | files (commitSha : Text) (files : List FileDiffSummary)
  | error (message : Text)
deriving DecidableEq, Repr

/-- There is no file to select. -/
def FilesResponse.isEmpty : FilesResponse → Bool
  | .files _ (_ :: _) => false
  | _ => true

structure DiffViewerState where
  commitSha : Option Text
  scope : DiffScope
  files : List FileDiffSummary := []
  diffCache : Table Text FileDiff := ∅
  selectedFile : Option Text := none
  loading : Bool := true
  loadingFile : Option Text := none
  error : Option Text := none
  selectionGeneration : ℕ := 0
  contextGeneration : ℕ := 0
  /-- The calls of the backend on the way. -/
  filesRequests : List FilesRequest := []
  diffRequests : List DiffRequest := []

/-- The display path of a summary. -/
def fileSummaryPath (summary : FileDiffSummary) : Text := (summary.after.or summary.before).getD []

namespace DiffViewerState

variable (s : DiffViewerState)

/-- `loadFiles(contextGeneration)`, up to the call of the backend. -/
def loadFiles : DiffViewerState :=
  { s with
    loading := true
    error := none
    filesRequests := s.filesRequests ++ [⟨s.contextGeneration, s.commitSha, s.scope⟩] }

/-- The end of `loadFiles`. -/
def loaded : Option ℕ → DiffViewerState
  | none => s
  | some generation => if generation = s.contextGeneration then { s with loading := false } else s

/-- `loadFileDiff(path)`: `none` when it returns without a call of the backend. -/
def loadFileDiff (path : Text) (loader : Option ℕ) : Option DiffViewerState :=
  match s.commitSha with
  | none | some [] => none
  | some (c :: cs) =>
    if (s.diffCache.lookup path).isSome then none
    else some { s with
      loadingFile := some path
      diffRequests := s.diffRequests ++ [⟨c :: cs, s.scope, path, loader⟩] }

/-- `selectFile(path)`. A `loadFiles` that waits for it ends at once when there is nothing to load. -/
def selectFile (path : Option Text) (loader : Option ℕ) : DiffViewerState :=
  let selected := { s with selectionGeneration := s.selectionGeneration + 1, selectedFile := path }
  match path with
  | none | some [] => selected.loaded loader
  | some (c :: cs) => (selected.loadFileDiff (c :: cs) loader).getD (selected.loaded loader)

/-- `getCurrentDiff()`. -/
def getCurrentDiff : Option FileDiff :=
  match s.selectedFile with
  | none | some [] => none
  | some (c :: cs) => s.diffCache.lookup (c :: cs)

def switchContext (newScope : DiffScope) (newCommitSha : Option Text) : DiffViewerState :=
  { s with
    contextGeneration := s.contextGeneration + 1
    scope := newScope
    commitSha := newCommitSha
    diffCache := ∅
    selectedFile := none
    loadingFile := none
    files := []
    error := none }.loadFiles

/-- What `loadFiles` does with the response. -/
def receiveFiles (request : FilesRequest) (response : FilesResponse) : DiffViewerState :=
  if request.generation ≠ s.contextGeneration then s
  else
    match response with
    | .error message => { s with error := some message, files := [] }.loaded (some request.generation)
    | .files commitSha files =>
      let listed := { s with commitSha := some commitSha, files }
      match files with
      | [] => listed.loaded (some request.generation)
      | summary :: _ => listed.selectFile (some (fileSummaryPath summary)) (some request.generation)

/-- What `loadFileDiff` does with the response, `none` if the call has failed. -/
def receiveDiff (request : DiffRequest) (response : Option FileDiff) : DiffViewerState :=
  let cached := match response with
    | none => s.diffCache
    | some diff => s.diffCache.insert request.path diff
  { s with diffCache := cached, loadingFile := none }.loaded request.loader

end DiffViewerState

/-- `createDiffViewerState`. -/
def createDiffViewerState (scope : DiffScope) (commitSha : Option Text) : DiffViewerState :=
  DiffViewerState.loadFiles { commitSha, scope }

inductive ViewerEvent where
  | selectFile (path : Option Text)
  | loadFileDiff (path : Text)
  | switchContext (newScope : DiffScope) (newCommitSha : Option Text)
  /-- The response to the call at `call`. -/
  | filesResponse (call : ℕ) (response : FilesResponse)
  | diffResponse (call : ℕ) (success : Bool)
deriving DecidableEq, Repr

namespace DiffViewerState

variable (diffOf : DiffScope → Text → Text → FileDiff)

/-- A list is that of the commit it was requested for. -/
def Answers (request : FilesRequest) : FilesResponse → Prop
  | .files commitSha _ => ∀ requested ∈ request.commitSha, commitSha = requested
  | .error _ => True

instance (request : FilesRequest) : (response : FilesResponse) → Decidable (Answers request response)
  | .files commitSha _ => inferInstanceAs (Decidable (∀ requested ∈ request.commitSha, commitSha = requested))
  | .error _ => .isTrue trivial

def step (s : DiffViewerState) : ViewerEvent → Option DiffViewerState
  | .selectFile path => some (s.selectFile path none)
  | .loadFileDiff path => some ((s.loadFileDiff path none).getD s)
  | .switchContext newScope newCommitSha => some (s.switchContext newScope newCommitSha)
  | .filesResponse call response =>
    s.filesRequests[call]?.bind fun request =>
      if Answers request response then
        some ({ s with filesRequests := s.filesRequests.eraseIdx call }.receiveFiles request response)
      else none
  | .diffResponse call success =>
    s.diffRequests[call]?.bind fun request =>
      let response := if success then some (diffOf request.scope request.commitSha request.path) else none
      some ({ s with diffRequests := s.diffRequests.eraseIdx call }.receiveDiff request response)

/-! ## The diffs of the context -/

variable {diffOf} {s t : DiffViewerState}

/-- Every entry of the cache is a diff of the context. -/
def Right (diffOf : DiffScope → Text → Text → FileDiff) (s : DiffViewerState) : Prop :=
  ∀ path diff, s.diffCache.lookup path = some diff → ∃ sha ∈ s.commitSha, diff = diffOf s.scope sha path

/-- The list of the context is on the way. -/
def Listing (s : DiffViewerState) : Prop := ∃ request ∈ s.filesRequests, request.generation = s.contextGeneration

def Listed (s : DiffViewerState) (path : Text) : Prop := path ∈ s.files.map fileSummaryPath

/-- The condition on a step: a file is selected from the list, or before the list comes; a list with nothing to
select comes while nothing is selected; and a diff comes in the context for which it was requested. -/
def Timely (s : DiffViewerState) : ViewerEvent → Prop
  | .selectFile path => ∀ p ∈ path, s.Listed p ∨ s.Listing
  | .loadFileDiff _ | .switchContext .. => True
  | .filesResponse call response => ∀ request ∈ s.filesRequests[call]?, request.generation = s.contextGeneration →
      response.isEmpty → s.selectedFile = none
  | .diffResponse call success => success = true → ∀ request ∈ s.diffRequests[call]?,
      s.scope = request.scope ∧ s.commitSha = some request.commitSha

structure Inv (diffOf : DiffScope → Text → Text → FileDiff) (s : DiffViewerState) : Prop where
  right : s.Right diffOf
  nodup : (s.filesRequests.map (·.generation)).Nodup
  bounded : ∀ request ∈ s.filesRequests, request.generation ≤ s.contextGeneration
  /-- The list on the way is for the commit of the context. -/
  current : ∀ request ∈ s.filesRequests, request.generation = s.contextGeneration → request.commitSha = s.commitSha
  selected : s.Listing ∨ ∀ path ∈ s.selectedFile, s.Listed path

theorem loaded_eq (loader : Option ℕ) : ∃ loading, s.loaded loader = { s with loading } := by
  cases loader with
  | none => exact ⟨s.loading, rfl⟩
  | some generation =>
    rw [loaded]
    split
    · exact ⟨false, rfl⟩
    · exact ⟨s.loading, rfl⟩

theorem loadFileDiff_eq {path : Text} {loader : Option ℕ} (h : s.loadFileDiff path loader = some t) :
    ∃ diffRequests, t = { s with loadingFile := some path, diffRequests } := by
  rw [loadFileDiff] at h
  split at h
  · cases h
  · cases h
  · split at h
    · cases h
    · cases h
      exact ⟨_, rfl⟩

/-- Selecting a file starts calls of the backend, and nothing else changes but the selection. -/
theorem selectFile_eq (path : Option Text) (loader : Option ℕ) :
    ∃ selectionGeneration loading loadingFile diffRequests, s.selectFile path loader
      = { s with selectedFile := path, selectionGeneration, loading, loadingFile, diffRequests } := by
  unfold selectFile
  obtain ⟨loading, hloaded⟩ := loaded_eq loader
    (s := { s with selectionGeneration := s.selectionGeneration + 1, selectedFile := path })
  dsimp only
  split
  · exact ⟨_, _, _, _, hloaded⟩
  · exact ⟨_, _, _, _, hloaded⟩
  next c cs =>
    cases hload : loadFileDiff
        { s with selectionGeneration := s.selectionGeneration + 1, selectedFile := some (c :: cs) } (c :: cs) loader with
    | none => exact ⟨_, _, _, _, hloaded⟩
    | some t =>
      obtain ⟨diffRequests, rfl⟩ := loadFileDiff_eq hload
      exact ⟨_, _, _, _, rfl⟩

theorem Inv.selectFile (h : s.Inv diffOf) {path : Option Text} (loader : Option ℕ)
    (hpath : s.Listing ∨ ∀ p ∈ path, s.Listed p) : (s.selectFile path loader).Inv diffOf := by
  obtain ⟨selectionGeneration, loading, loadingFile, diffRequests, hselect⟩ := selectFile_eq (s := s) path loader
  rw [hselect]
  exact ⟨h.right, h.nodup, h.bounded, h.current, hpath⟩

theorem Inv.loadFileDiff (h : s.Inv diffOf) (path : Text) : ((s.loadFileDiff path none).getD s).Inv diffOf := by
  cases hload : s.loadFileDiff path none with
  | none => exact h
  | some t =>
    obtain ⟨diffRequests, rfl⟩ := loadFileDiff_eq hload
    exact ⟨h.right, h.nodup, h.bounded, h.current, h.selected⟩

theorem Inv.switchContext (h : s.Inv diffOf) (newScope : DiffScope) (newCommitSha : Option Text) :
    (s.switchContext newScope newCommitSha).Inv diffOf := by
  refine ⟨fun path diff hdiff => (by cases hdiff), ?_, fun request hrequest => ?_, fun request hrequest hgeneration => ?_,
    .inl ⟨_, List.mem_append_right _ (List.mem_singleton_self _), rfl⟩⟩
  · show ((s.filesRequests ++ [(⟨s.contextGeneration + 1, newCommitSha, newScope⟩ : FilesRequest)]).map
      (·.generation)).Nodup
    rw [List.map_append, List.nodup_append']
    refine ⟨h.nodup, List.nodup_singleton _, fun generation hold hnew => ?_⟩
    obtain ⟨request, hrequest, rfl⟩ := List.mem_map.mp hold
    have hbound := h.bounded request hrequest
    have hsame : request.generation = s.contextGeneration + 1 := List.mem_singleton.mp hnew
    omega
  · show request.generation ≤ s.contextGeneration + 1
    rcases List.mem_append.mp hrequest with hold | hnew
    · have := h.bounded request hold
      omega
    · rw [List.mem_singleton.mp hnew]
  · have hgeneration' : request.generation = s.contextGeneration + 1 := hgeneration
    rcases List.mem_append.mp hrequest with hold | hnew
    · have := h.bounded request hold
      omega
    · rw [List.mem_singleton.mp hnew]
      rfl

/-- The requests without the one whose response has come. -/
theorem Inv.eraseIdx (h : s.Inv diffOf) {call : ℕ} {request : FilesRequest} (hcall : s.filesRequests[call]? = some request) :
    (∀ r ∈ s.filesRequests.eraseIdx call, r ∈ s.filesRequests ∧ r.generation ≠ request.generation) ∧
      ((s.filesRequests.eraseIdx call).map (·.generation)).Nodup := by
  obtain ⟨hlt, hget⟩ := List.getElem?_eq_some_iff.mp hcall
  have hnodup := h.nodup
  refine ⟨fun r hr => ⟨List.mem_of_mem_eraseIdx hr, fun hsame => ?_⟩,
    hnodup.sublist ((List.eraseIdx_sublist _ _).map _)⟩
  obtain ⟨i, hne, hi⟩ := List.mem_eraseIdx_iff_getElem?.mp hr
  obtain ⟨hlt', hget'⟩ := List.getElem?_eq_some_iff.mp hi
  have hi' : i < (s.filesRequests.map (·.generation)).length := by simpa using hlt'
  have hcall' : call < (s.filesRequests.map (·.generation)).length := by simpa using hlt
  have hgenerations : (s.filesRequests.map (·.generation))[i] = (s.filesRequests.map (·.generation))[call] := by
    rw [List.getElem_map, List.getElem_map, hget', hget, hsame]
  exact hne ((List.Nodup.getElem_inj_iff hnodup).mp hgenerations)

theorem Inv.loaded (h : s.Inv diffOf) (loader : Option ℕ) : (s.loaded loader).Inv diffOf := by
  obtain ⟨loading, hloaded⟩ := loaded_eq (s := s) loader
  rw [hloaded]
  exact ⟨h.right, h.nodup, h.bounded, h.current, h.selected⟩

theorem Inv.receiveFiles (h : s.Inv diffOf) {call : ℕ} {request : FilesRequest} {response : FilesResponse}
    (hcall : s.filesRequests[call]? = some request) (hanswers : Answers request response)
    (htimely : s.Timely (.filesResponse call response)) :
    ({ s with filesRequests := s.filesRequests.eraseIdx call }.receiveFiles request response).Inv diffOf := by
  obtain ⟨hothers, hnodup⟩ := h.eraseIdx hcall
  have hbounded : ∀ r ∈ s.filesRequests.eraseIdx call, r.generation ≤ s.contextGeneration :=
    fun r hr => h.bounded r (hothers r hr).1
  have hmem := List.mem_of_getElem? hcall
  rw [Timely, hcall] at htimely
  unfold DiffViewerState.receiveFiles
  by_cases hold : request.generation ≠ s.contextGeneration
  · rw [if_pos hold]
    refine ⟨h.right, hnodup, hbounded, fun r hr => h.current r (hothers r hr).1, ?_⟩
    refine h.selected.imp_left ?_
    rintro ⟨r, hr, hgeneration⟩
    obtain ⟨i, hi⟩ := List.mem_iff_getElem?.mp hr
    refine ⟨r, List.mem_eraseIdx_iff_getElem?.mpr ⟨i, fun hsame => hold ?_, hi⟩, hgeneration⟩
    rw [hsame, hcall, Option.some.injEq] at hi
    rw [hi, hgeneration]
  · rw [if_neg hold]
    have hgeneration := not_not.mp hold
    -- no other list is for the context
    have hcurrent (commitSha : Option Text) :
        ∀ r ∈ s.filesRequests.eraseIdx call, r.generation = s.contextGeneration → r.commitSha = commitSha :=
      fun r hr hsame => absurd (hsame.trans hgeneration.symm) (hothers r hr).2
    cases response with
    | error message =>
      have hnone := htimely request rfl hgeneration rfl
      have hinv : Inv diffOf { s with
          filesRequests := s.filesRequests.eraseIdx call, error := some message, files := [] } := by
        refine ⟨h.right, hnodup, hbounded, hcurrent _, .inr fun path hpath => ?_⟩
        rw [show s.selectedFile = some path from hpath] at hnone
        cases hnone
      exact hinv.loaded _
    | files commitSha files =>
      have hright : Right diffOf { s with
          filesRequests := s.filesRequests.eraseIdx call, commitSha := some commitSha, files } := by
        intro path diff hdiff
        obtain ⟨sha, hsha, hdiff'⟩ := h.right path diff hdiff
        -- the commit was known when the entry was made
        have hsame : commitSha = sha := hanswers sha (h.current request hmem hgeneration ▸ hsha)
        exact ⟨commitSha, rfl, hsame ▸ hdiff'⟩
      cases files with
      | nil =>
        have hnone := htimely request rfl hgeneration rfl
        have hinv : Inv diffOf { s with
            filesRequests := s.filesRequests.eraseIdx call, commitSha := some commitSha, files := [] } := by
          refine ⟨hright, hnodup, hbounded, hcurrent _, .inr fun path hpath => ?_⟩
          rw [show s.selectedFile = some path from hpath] at hnone
          cases hnone
        exact hinv.loaded _
      | cons summary rest =>
        obtain ⟨selectionGeneration, loading, loadingFile, diffRequests, hselect⟩ :=
          selectFile_eq (s := { s with
            filesRequests := s.filesRequests.eraseIdx call, commitSha := some commitSha, files := summary :: rest })
            (some (fileSummaryPath summary)) (some request.generation)
        show (DiffViewerState.selectFile _ _ _).Inv diffOf
        rw [hselect]
        refine ⟨hright, hnodup, hbounded, hcurrent _, .inr fun path hpath => ?_⟩
        cases hpath
        exact List.mem_cons_self

theorem Inv.receiveDiff (h : s.Inv diffOf) {call : ℕ} {request : DiffRequest} {success : Bool}
    (hcall : s.diffRequests[call]? = some request) (htimely : s.Timely (.diffResponse call success)) :
    ({ s with diffRequests := s.diffRequests.eraseIdx call }.receiveDiff request
      (if success then some (diffOf request.scope request.commitSha request.path) else none)).Inv diffOf := by
  unfold DiffViewerState.receiveDiff
  cases success with
  | false =>
    have hinv : Inv diffOf { s with diffRequests := s.diffRequests.eraseIdx call, loadingFile := none } :=
      ⟨h.right, h.nodup, h.bounded, h.current, h.selected⟩
    exact hinv.loaded _
  | true =>
    obtain ⟨hscope, hsha⟩ := htimely rfl request hcall
    have hright : Right diffOf { s with
        diffCache := s.diffCache.insert request.path (diffOf request.scope request.commitSha request.path) } := by
      intro path diff hdiff
      by_cases hpath : path = request.path
      · subst hpath
        rw [AList.lookup_insert, Option.some.injEq] at hdiff
        refine ⟨request.commitSha, hsha, ?_⟩
        rw [← hdiff]
        show _ = diffOf s.scope request.commitSha request.path
        rw [hscope]
      · rw [AList.lookup_insert_ne hpath] at hdiff
        exact h.right path diff hdiff
    have hinv : Inv diffOf { s with
        diffRequests := s.diffRequests.eraseIdx call, loadingFile := none,
        diffCache := s.diffCache.insert request.path (diffOf request.scope request.commitSha request.path) } :=
      ⟨hright, h.nodup, h.bounded, h.current, h.selected⟩
    exact hinv.loaded _

theorem Inv.step (h : s.Inv diffOf) {event : ViewerEvent} (htimely : s.Timely event)
    (hstep : s.step diffOf event = some t) : t.Inv diffOf := by
  cases event with
  | selectFile path =>
    cases hstep
    refine h.selectFile none ?_
    by_cases hlisting : s.Listing
    · exact .inl hlisting
    · exact .inr fun p hp => (htimely p hp).resolve_right hlisting
  | loadFileDiff path =>
    cases hstep
    exact h.loadFileDiff path
  | switchContext newScope newCommitSha =>
    cases hstep
    exact h.switchContext newScope newCommitSha
  | filesResponse call response =>
    obtain ⟨request, hcall, hstep⟩ := Option.bind_eq_some_iff.mp hstep
    split at hstep
    next hanswers =>
      cases hstep
      exact h.receiveFiles hcall hanswers htimely
    next => cases hstep
  | diffResponse call success =>
    obtain ⟨request, hcall, hstep⟩ := Option.bind_eq_some_iff.mp hstep
    cases hstep
    exact h.receiveDiff hcall htimely

theorem inv_createDiffViewerState (scope : DiffScope) (commitSha : Option Text) :
    (createDiffViewerState scope commitSha).Inv diffOf := by
  refine ⟨fun path diff hdiff => (by cases hdiff), List.nodup_singleton _, fun request hrequest => ?_,
    fun request hrequest _ => ?_, .inl ⟨_, List.mem_singleton_self _, rfl⟩⟩
  · rw [List.mem_singleton.mp hrequest]
    exact Nat.le_refl _
  · rw [List.mem_singleton.mp hrequest]
    rfl

/-- In a run of timely steps the cache holds diffs of the context only, and once the list has come the selected file
is one of its files. -/
theorem run_shows_context {scope : DiffScope} {commitSha : Option Text} {events : List ViewerEvent}
    (hrun : run (step diffOf) (createDiffViewerState scope commitSha) events = some s)
    (htimely : Along (step diffOf) Timely (createDiffViewerState scope commitSha) events) :
    s.Right diffOf ∧ (s.filesRequests = [] → ∀ path ∈ s.selectedFile, s.Listed path) := by
  have hinv : s.Inv diffOf := run_invariant_along (fun _ _ _ h htimely hstep => Inv.step h htimely hstep)
    (inv_createDiffViewerState scope commitSha) htimely hrun
  refine ⟨hinv.right, fun hnone => hinv.selected.resolve_left ?_⟩
  rintro ⟨request, hrequest, -⟩
  rw [hnone] at hrequest
  exact absurd hrequest List.not_mem_nil

instance (s : DiffViewerState) : Decidable s.Listing :=
  inferInstanceAs (Decidable (∃ request ∈ s.filesRequests, request.generation = s.contextGeneration))

instance (s : DiffViewerState) (path : Text) : Decidable (s.Listed path) :=
  inferInstanceAs (Decidable (path ∈ s.files.map fileSummaryPath))

instance (s : DiffViewerState) : (event : ViewerEvent) → Decidable (s.Timely event)
  | .selectFile path => inferInstanceAs (Decidable (∀ p ∈ path, s.Listed p ∨ s.Listing))
  | .loadFileDiff _ | .switchContext .. => .isTrue trivial
  | .filesResponse call response => inferInstanceAs (Decidable (∀ request ∈ s.filesRequests[call]?,
      request.generation = s.contextGeneration → response.isEmpty → s.selectedFile = none))
  | .diffResponse call success => inferInstanceAs (Decidable (success = true → ∀ request ∈ s.diffRequests[call]?,
      s.scope = request.scope ∧ s.commitSha = some request.commitSha))

/-- A backend whose diffs show the commit. -/
def diffOfCommit (_ : DiffScope) (commitSha path : Text) : FileDiff := ⟨none, some ⟨path, .text [commitSha]⟩, []⟩

/-- The list of a commit with one changed file. -/
def listOf (commitSha : Text) : FilesResponse := .files commitSha [.new none (some ['a'])]

/-- A diff that comes after a switch to a commit is shown as the diff of that commit; and a file that is not in the
list stays selected. -/
theorem run_shows_other_context :
    (∃ s, run (step diffOfCommit) (createDiffViewerState .branch none)
        [.filesResponse 0 (listOf ['h']), .switchContext .commit (some ['x']), .diffResponse 0 true,
          .filesResponse 0 (listOf ['x'])] = some s ∧
      (s.filesRequests = [] ∧ s.diffRequests = []) ∧ s.commitSha = some ['x'] ∧
      s.getCurrentDiff = some (diffOfCommit .branch ['h'] ['a']) ∧ ¬ s.Right diffOfCommit) ∧
    ∃ s, run (step diffOfCommit) (createDiffViewerState .branch none)
        [.filesResponse 0 (listOf ['h']), .diffResponse 0 true, .selectFile (some ['b']), .diffResponse 0 true] = some s ∧
      (s.filesRequests = [] ∧ s.diffRequests = []) ∧ ¬ ∀ path ∈ s.selectedFile, s.Listed path := by
  refine ⟨?_, ?_⟩
  · obtain ⟨s, hrun, hs⟩ := exists_run_of_any
      (show (run (step diffOfCommit) (createDiffViewerState .branch none)
          [.filesResponse 0 (listOf ['h']), .switchContext .commit (some ['x']), .diffResponse 0 true,
            .filesResponse 0 (listOf ['x'])]).any
        (fun s => decide ((s.filesRequests = [] ∧ s.diffRequests = []) ∧ s.commitSha = some ['x'] ∧
          s.getCurrentDiff = some (diffOfCommit .branch ['h'] ['a']) ∧
          s.diffCache.lookup ['a'] = some (diffOfCommit .branch ['h'] ['a']))) = true by decide)
    obtain ⟨hsettled, hsha, hcurrent, hlookup⟩ := of_decide_eq_true hs
    refine ⟨s, hrun, hsettled, hsha, hcurrent, fun hright => ?_⟩
    obtain ⟨sha, hsha', hdiff⟩ := hright _ _ hlookup
    rw [hsha, Option.mem_some_iff] at hsha'
    subst hsha'
    simp [diffOfCommit] at hdiff
  · obtain ⟨s, hrun, hs⟩ := exists_run_of_any
      (show (run (step diffOfCommit) (createDiffViewerState .branch none)
          [.filesResponse 0 (listOf ['h']), .diffResponse 0 true, .selectFile (some ['b']), .diffResponse 0 true]).any
        (fun s => decide ((s.filesRequests = [] ∧ s.diffRequests = []) ∧ ¬ ∀ path ∈ s.selectedFile, s.Listed path)) = true
        by decide)
    exact ⟨s, hrun, of_decide_eq_true hs⟩

/-- The diff has come before the switch. -/
theorem run_shows_context_switched :
    ∃ s, run (step diffOfCommit) (createDiffViewerState .branch none)
        [.filesResponse 0 (listOf ['h']), .diffResponse 0 true, .switchContext .commit (some ['x']),
          .filesResponse 0 (listOf ['x']), .diffResponse 0 true] = some s ∧
      s.Right diffOfCommit ∧ (s.filesRequests = [] → ∀ path ∈ s.selectedFile, s.Listed path) := by
  obtain ⟨s, hrun, -⟩ := exists_run_of_any
    (show (run (step diffOfCommit) (createDiffViewerState .branch none)
        [.filesResponse 0 (listOf ['h']), .diffResponse 0 true, .switchContext .commit (some ['x']),
          .filesResponse 0 (listOf ['x']), .diffResponse 0 true]).any (fun _ => true) = true by decide)
  exact ⟨s, hrun, run_shows_context hrun (by decide)⟩

end DiffViewerState

end Builderbot.DiffViewer
