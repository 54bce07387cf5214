import Builderbot.Lib.Run
import Builderbot.Staged.WorkspaceClone

/-!
# Deleting workspaces

`cleanup_branch_resources` of `apps/staged/src-tauri/src/branches.rs` with `resolve_project_workspace_name`,
`infer_branch_name` and `infer_workspace_name`, in a store in which projects and branches are created and branches are
deleted in any order. A deletion is a call of `cleanup_branch_resources` and then the deletion of the row.

* `run_safe_iff`: no deletion takes a workspace that a remote branch still has, and the last one takes it, exactly if
  no other project has the workspace of the branch.
* `run_unsafe`: two projects whose names give the same workspace.
-/

namespace Builderbot.Staged.WorkspaceDeletion

open Builderbot.Lib.Text Builderbot.Git Program

open WorkspaceClone (BloxError)

/-! ## Names -/

/-- `to_lowercase`, as far as it matters to those who keep only ASCII characters of it: the letters, the dotted capital
`I` and the Kelvin sign. -/
def toLowercase (s : Text) : Text :=
  s.flatMap fun c => if c.toNat = 0x130 then ['i', Char.ofNat 0x307] else if c.toNat = 0x212A then ['k'] else [c.toLower]

/-- Split at dashes, drop what is empty and join again. -/
def joinDashes (s : Text) : Text := ['-'].intercalate ((s.splitOn '-').filter (· ≠ []))

def inferBranchName (projectName : Text) : Text :=
  let replaced := (toLowercase projectName).map fun c => if c = ' ' ∨ c = '_' then '-' else c
  let kept := replaced.filter fun c => c.isAlphanum ∨ c = '-' ∨ c = '/' ∨ c = '.'
  let branch := joinDashes (kept.map fun c => if c = '.' ∨ c = '/' then '-' else c)
  if branch.isEmpty then "feature".toList else branch

/-- The first bytes of a text, if they end with a character. -/
def takeBytes : ℕ → Text → Option Text
  | 0, _ => some []
  | _ + 1, [] => none
  | n + 1, c :: s => if c.utf8Size ≤ n + 1 then (takeBytes (n + 1 - c.utf8Size) s).map (c :: ·) else none

def byteLength (s : Text) : ℕ := (s.map Char.utf8Size).sum

def workspaceNameMaxLength : ℕ := 32

/-- The code panics where it would cut a character. -/
def inferWorkspaceName (branchName : Text) : Option Text :=
  let safe := joinDashes (branchName.map fun c => if c = '/' then '-' else c)
  if safe.isEmpty then some "stg-feature".toList
  else
    let full := "stg-".toList ++ safe
    if byteLength full > workspaceNameMaxLength then
      (takeBytes workspaceNameMaxLength full).map fun cut => (cut.reverse.dropWhile (· = '-')).reverse
    else some full

/-! ## The store -/

inductive BranchType where
  | local
  | remote
deriving DecidableEq, Repr

structure Branch where
  id : Text
  projectId : Text
  projectRepoId : Option Text := none
  branchType : BranchType
  workspaceName : Option Text
deriving DecidableEq, Repr

/-- A remote branch that has the workspace. -/
def Branch.Uses (branch : Branch) (name : Text) : Prop := branch.branchType = .remote ∧ branch.workspaceName = some name

instance Branch.Uses.decidable (branch : Branch) (name : Text) : Decidable (branch.Uses name) :=
  inferInstanceAs (Decidable (_ ∧ _))

structure Project where
  name : Text
  primaryRepo : Option Text := none
deriving DecidableEq, Repr

structure Workdir where
  id : Text
  branchId : Option Text
  path : Text
deriving DecidableEq, Repr

structure World where
  projects : Table Text Project := ∅
  /-- `github_repo` of the project repos. -/
  projectRepos : Table Text Text := ∅
  /-- In the order in which they were created. -/
  branches : List Branch := []
  workdirs : List Workdir := []
  /-- The workspaces that exist. -/
  workspaces : List Text := []

namespace World

variable (w : World)

def branchesOf (projectId : Text) : List Branch := w.branches.filter (·.projectId = projectId)

def deleteBranch (id : Text) : World := { w with branches := w.branches.filter (·.id ≠ id) }

def deleteWorkspace (name : Text) : World := { w with workspaces := w.workspaces.filter (· ≠ name) }

end World

/-- `resolve_project_workspace_name`, for the project with its branches. -/
def resolveProjectWorkspaceName (branches : List Branch) (project : Project) (fallbackWorkspaceName : Option Text) :
    Option Text :=
  let existing := ((branches.find? (·.branchType = .remote)).bind (·.workspaceName)).filter fun name => trim name ≠ []
  match existing with
  | some name => some name
  | none =>
    match (fallbackWorkspaceName.map trim).filter (· ≠ []) with
    | some name => some name
    | none => inferWorkspaceName (inferBranchName project.name)

/-! ## Cleaning up -/

inductive Call where
  | getProject (id : Text)
  | deleteBranchCache (branchId : Text)
  | getWorkdirForBranch (branchId : Text)
  | getProjectRepo (id : Text)
  | reposDir
  | removeWorktree (repoSlug path : Text)
  | deleteWorkdir (id : Text)
  | listBranchesForProject (projectId : Text)
  | wsDelete (name : Text)
deriving DecidableEq, Repr

abbrev Reply : Call → Type
  | .getProject _ => Except Text (Option Project)
  | .deleteBranchCache _ => Unit
  | .getWorkdirForBranch _ => Except Text (Option Workdir)
  | .getProjectRepo _ => Except Text (Option Text)
  | .reposDir => Option Unit
  | .removeWorktree _ _ | .deleteWorkdir _ => Except Text Unit
  | .listBranchesForProject _ => Except Text (List Branch)
  | .wsDelete _ => Except BloxError Unit

/-- What comes from outside at a call. -/
structure Outcome where
  /-- The error of the store or of git. -/
  failure : Option Text := none
  wsFailure : Option BloxError := none
  /-- A deletion that failed was carried out. -/
  carriedOut : Bool := false
  noReposDir : Bool := false
deriving DecidableEq, Repr

def orElse {α : Type} (f : Outcome) (a : α) : Except Text α :=
  match f.failure with
  | some e => .error e
  | none => .ok a

def handle (w : World) : (c : Call) → Outcome → Reply c × World
  | .getProject id, f => (orElse f (w.projects.lookup id), w)
  | .deleteBranchCache _, _ => ((), w)
  | .getWorkdirForBranch branchId, f => (orElse f (w.workdirs.find? (·.branchId = some branchId)), w)
  | .getProjectRepo id, f => (orElse f (w.projectRepos.lookup id), w)
  | .reposDir, f => (if f.noReposDir then none else some (), w)
  | .removeWorktree _ _, f => (orElse f (), w)
  | .deleteWorkdir id, f =>
    match f.failure with
    | some e => (.error e, w)
    | none => (.ok (), { w with workdirs := w.workdirs.filter (·.id ≠ id) })
  | .listBranchesForProject projectId, f => (orElse f (w.branchesOf projectId), w)
  | .wsDelete name, f =>
    match f.wsFailure with
    | some e => (.error e, if f.carriedOut then w.deleteWorkspace name else w)
    | none => (.ok (), w.deleteWorkspace name)

abbrev CleanupM (α : Type) := Program Call Reply Text α

def ask (c : Call) : CleanupM (Reply c) := perform c

def projectPrimaryRepo (project : Project) : Except Text Text :=
  match project.primaryRepo with
  | some repo => .ok repo
  | none => .error ("Project '".toList ++ project.name ++ "' has no repository attached".toList)

def resolveBranchRepoSlug (project : Project) (branch : Branch) : CleanupM Text := do
  match branch.projectRepoId with
  | none => ofExcept id (projectPrimaryRepo project)
  | some repoId =>
    match ← ofExcept id (← ask (.getProjectRepo repoId) : Except Text (Option Text)) with
    | some repo => return repo
    | none => ofExcept id (projectPrimaryRepo project)

/-- The error says that there is no such workspace. -/
def isNotFound : BloxError → Bool
  | .commandFailed message => contains "not found".toList (toLowercase message)
  | _ => false

/-- The arm for local branches. -/
def cleanupWorkdir (project : Project) (branch : Branch) : CleanupM Unit := do
  match ← ofExcept id (← ask (.getWorkdirForBranch branch.id) : Except Text (Option Workdir)) with
  | none => return ()
  | some wd =>
    let repoSlug ← resolveBranchRepoSlug project branch
    ofOption "Cannot determine clone path".toList (← ask .reposDir : Option Unit)
    ofExcept id (← ask (.removeWorktree repoSlug wd.path) : Except Text Unit)
    ofExcept id (← ask (.deleteWorkdir wd.id) : Except Text Unit)

/-- `in_use_elsewhere`. -/
def inUseElsewhere (branch : Branch) (wsName : Text) (branches : List Branch) : Bool :=
  branches.any fun b => b.id ≠ branch.id ∧ b.Uses wsName

/-- The arm for remote branches. -/
def cleanupWorkspace (branch : Branch) : CleanupM Unit := do
  match branch.workspaceName with
  | none => return ()
  | some wsName =>
    let branches ← ofExcept id (← ask (.listBranchesForProject branch.projectId) : Except Text (List Branch))
    if inUseElsewhere branch wsName branches then return ()
    else
      match (← ask (.wsDelete wsName) : Except BloxError Unit) with
      | .ok () => return ()
      | .error e =>
        if isNotFound e then return ()
        else .fail ("Failed to delete workspace ".toList ++ wsName ++ ": ".toList ++ e.display)

def cleanupBranchResources (branch : Branch) : CleanupM Unit := do
  let project ← ofOption ("Project not found: ".toList ++ branch.projectId)
    (← ofExcept id (← ask (.getProject branch.projectId) : Except Text (Option Project)))
  ask (.deleteBranchCache branch.id)
  match branch.branchType with
  | .local => cleanupWorkdir project branch
  | .remote => cleanupWorkspace branch

/-! ## The system -/

inductive Event where
  | createProject (id name : Text)
  | createBranch (id projectId : Text)
  /-- With the name that the user gives for the workspace. -/
  | createRemoteBranch (id projectId : Text) (workspaceName : Option Text)
  /-- The workspace of a branch is started. -/
  | startWorkspace (id : Text)
  /-- `delete_branch`, or with `bestEffort` a round of `delete_project`, which goes on after an error. The row may fail to
  be deleted. -/
  | deleteBranch (id : Text) (bestEffort : Bool) (outcome : Call → Outcome) (rowDeleted : Bool)

def createBranch (w : World) (branch : Branch) : Option World :=
  if (w.projects.lookup branch.projectId).isNone ∨ w.branches.any (·.id = branch.id) then none
  else some { w with branches := w.branches ++ [branch] }

/-- The cleanup of a branch. -/
abbrev cleanUp (w : World) (branch : Branch) (outcome : Call → Outcome) : Except Text Unit × World :=
  exec handle outcome (cleanupBranchResources branch) w

def step (w : World) : Event → Option World
  | .createProject id name =>
    if (w.projects.lookup id).isSome then none else some { w with projects := w.projects.insert id { name } }
  | .createBranch id projectId => createBranch w ⟨id, projectId, none, .local, none⟩
  | .createRemoteBranch id projectId workspaceName =>
    (w.projects.lookup projectId).bind fun project =>
      (resolveProjectWorkspaceName (w.branchesOf projectId) project workspaceName).bind fun name =>
        createBranch w ⟨id, projectId, none, .remote, some name⟩
  | .startWorkspace id =>
    ((w.branches.find? (·.id = id)).bind (·.workspaceName)).map fun name =>
      { w with workspaces := name :: w.workspaces }
  | .deleteBranch id bestEffort outcome rowDeleted =>
    (w.branches.find? (·.id = id)).map fun branch =>
      match cleanUp w branch outcome with
      | (.ok (), t) => if rowDeleted then t.deleteBranch id else t
      | (.error _, t) => if bestEffort ∧ rowDeleted then t.deleteBranch id else t

/-! ## What a cleanup does -/

variable {name : Text}

section

variable {w t : World} {branch : Branch} {outcome : Call → Outcome}

/-- Another remote branch of the project has the workspace. -/
def Shared (w : World) (branch : Branch) (name : Text) : Prop :=
  ∃ b ∈ w.branches, b.projectId = branch.projectId ∧ b.id ≠ branch.id ∧ b.Uses name

instance Shared.decidable (w : World) (branch : Branch) (name : Text) : Decidable (Shared w branch name) :=
  inferInstanceAs (Decidable (∃ b ∈ w.branches, _))

/-- The project is found. -/
def Found (w : World) (branch : Branch) (outcome : Call → Outcome) : Prop :=
  (outcome (.getProject branch.projectId)).failure = none ∧ (w.projects.lookup branch.projectId).isSome = true

instance Found.decidable (w : World) (branch : Branch) (outcome : Call → Outcome) : Decidable (Found w branch outcome) :=
  inferInstanceAs (Decidable (_ ∧ _))

/-- The workspace that a cleanup deletes: its branch is remote and has it, no other remote branch of the project does,
and the store can be read. -/
def deletes (w : World) (branch : Branch) (outcome : Call → Outcome) : Option Text :=
  if branch.branchType = .remote ∧ Found w branch outcome ∧
      (outcome (.listBranchesForProject branch.projectId)).failure = none then
    branch.workspaceName.filter fun name => ¬ Shared w branch name
  else none

theorem inUseElsewhere_branchesOf :
    inUseElsewhere branch name (w.branchesOf branch.projectId) = true ↔ Shared w branch name := by
  rw [inUseElsewhere, List.any_eq_true, Shared]
  constructor
  · rintro ⟨b, hb, huses⟩
    obtain ⟨hmem, hproject⟩ := List.mem_filter.mp hb
    obtain ⟨hid, huses⟩ := of_decide_eq_true huses
    exact ⟨b, hmem, of_decide_eq_true hproject, hid, huses⟩
  · rintro ⟨b, hmem, hproject, hid, huses⟩
    exact ⟨b, List.mem_filter.mpr ⟨hmem, decide_eq_true hproject⟩, decide_eq_true ⟨hid, huses⟩⟩

/-- The call is not one of `ws_delete`. -/
def Call.Local : Call → Prop
  | .wsDelete _ => False
  | _ => True

/-- What `cleanup_branch_resources` does once the project is found. -/
def cleanupRest (project : Project) (branch : Branch) : CleanupM Unit :=
  match branch.branchType with
  | .local => cleanupWorkdir project branch
  | .remote => cleanupWorkspace branch

theorem exec_cleanup_of_not_found (h : ¬ Found w branch outcome) : ∃ e, cleanUp w branch outcome = (.error e, w) := by
  rw [Found] at h
  rw [cleanUp, cleanupBranchResources]
  cases hfailure : (outcome (.getProject branch.projectId)).failure with
  | some e =>
    refine ⟨e, ?_⟩
    simp only [ask, exec_perform_bind, handle, orElse, hfailure]
    rfl
  | none =>
    cases hproject : w.projects.lookup branch.projectId with
    | some project => exact absurd ⟨hfailure, by rw [hproject]; rfl⟩ h
    | none =>
      refine ⟨"Project not found: ".toList ++ branch.projectId, ?_⟩
      simp only [ask, exec_perform_bind, handle, orElse, hfailure, hproject]
      rfl

theorem exec_cleanup_of_found (h : Found w branch outcome) :
    ∃ project, cleanUp w branch outcome = exec handle outcome (cleanupRest project branch) w := by
  obtain ⟨hfailure, hsome⟩ := h
  obtain ⟨project, hproject⟩ := Option.isSome_iff_exists.mp hsome
  refine ⟨project, ?_⟩
  rw [cleanUp, cleanupBranchResources]
  simp only [ask, exec_perform_bind, handle, orElse, hfailure, hproject]
  rfl

variable {P : World → Call → Prop}

theorem callsMeet_cleanup_of_found (h : Found w branch outcome) (hP : ∀ w c, Call.Local c → P w c) :
    ∃ project, CallsMeet handle outcome P (cleanupBranchResources branch) w ↔
      CallsMeet handle outcome P (cleanupRest project branch) w := by
  obtain ⟨hfailure, hsome⟩ := h
  obtain ⟨project, hproject⟩ := Option.isSome_iff_exists.mp hsome
  refine ⟨project, ?_⟩
  refine (and_iff_right (hP w (.getProject branch.projectId) trivial)).trans ?_
  show CallsMeet handle outcome P (ofExcept id (orElse (outcome (.getProject branch.projectId))
    (w.projects.lookup branch.projectId)) >>= _) w ↔ _
  rw [orElse, hfailure, hproject]
  exact and_iff_right (hP w (.deleteBranchCache branch.id) trivial)

theorem callsMeet_cleanup_of_not_found (h : ¬ Found w branch outcome) (hP : ∀ w c, Call.Local c → P w c) :
    CallsMeet handle outcome P (cleanupBranchResources branch) w := by
  refine ⟨hP w (.getProject branch.projectId) trivial, ?_⟩
  show CallsMeet handle outcome P (ofExcept id (orElse (outcome (.getProject branch.projectId))
    (w.projects.lookup branch.projectId)) >>= _) w
  rw [Found] at h
  rw [orElse]
  cases hfailure : (outcome (.getProject branch.projectId)).failure with
  | some e => trivial
  | none =>
    cases hproject : w.projects.lookup branch.projectId with
    | some project => exact absurd ⟨hfailure, by rw [hproject]; rfl⟩ h
    | none => trivial

theorem sound_resolveBranchRepoSlug (project : Project) :
    Sound Call.Local (fun _ _ => True) (fun _ => True) (resolveBranchRepoSlug project branch) := by
  rw [resolveBranchRepoSlug]
  split
  · exact sound_ofExcept.mpr fun _ _ => trivial
  · refine sound_perform_bind.mpr ⟨trivial, fun r _ => sound_bind.mpr (sound_ofExcept.mpr fun repo _ => ?_)⟩
    split
    · trivial
    · exact sound_ofExcept.mpr fun _ _ => trivial

theorem sound_cleanupWorkdir (project : Project) :
    Sound Call.Local (fun _ _ => True) (fun _ => True) (cleanupWorkdir project branch) := by
  refine sound_perform_bind.mpr ⟨trivial, fun r _ => sound_bind.mpr (sound_ofExcept.mpr fun found _ => ?_)⟩
  split
  · trivial
  next wd =>
    refine (sound_resolveBranchRepoSlug project).bind fun repoSlug _ => ?_
    refine sound_perform_bind.mpr ⟨trivial, fun r _ => sound_bind.mpr (sound_ofOption.mpr fun _ _ => ?_)⟩
    refine sound_perform_bind.mpr ⟨trivial, fun r _ => sound_bind.mpr (sound_ofExcept.mpr fun _ _ => ?_)⟩
    exact sound_perform_bind.mpr ⟨trivial, fun r _ => sound_ofExcept.mpr fun _ _ => trivial⟩

/-- The outcomes of the arm for remote branches. -/
theorem exec_cleanupWorkspace (hname : branch.workspaceName = some name) :
    exec handle outcome (cleanupWorkspace branch) w =
      match (outcome (.listBranchesForProject branch.projectId)).failure with
      | some e => (.error e, w)
      | none =>
        if Shared w branch name then (.ok (), w)
        else
          let f := outcome (.wsDelete name)
          match f.wsFailure with
          | none => (.ok (), w.deleteWorkspace name)
          | some e =>
            (if isNotFound e then .ok ()
              else .error ("Failed to delete workspace ".toList ++ name ++ ": ".toList ++ e.display),
              if f.carriedOut then w.deleteWorkspace name else w) := by
  rw [cleanupWorkspace, hname]
  show exec handle outcome (ofExcept id (orElse (outcome (.listBranchesForProject branch.projectId))
    (w.branchesOf branch.projectId)) >>= _) w = _
  rw [orElse]
  cases (outcome (.listBranchesForProject branch.projectId)).failure with
  | some e => rfl
  | none =>
    show exec handle outcome (if inUseElsewhere branch name (w.branchesOf branch.projectId) = true then _ else _) w = _
    by_cases hshared : Shared w branch name
    · rw [if_pos (inUseElsewhere_branchesOf.mpr hshared)]
      exact (if_pos hshared).symm
    · rw [if_neg fun h => hshared (inUseElsewhere_branchesOf.mp h)]
      refine Eq.trans ?_ (if_neg hshared).symm
      show exec handle outcome (match (handle w (.wsDelete name) (outcome (.wsDelete name))).1 with
        | .ok () => _
        | .error e => _) (handle w (.wsDelete name) (outcome (.wsDelete name))).2 = _
      simp only [handle]
      cases (outcome (.wsDelete name)).wsFailure with
      | none => rfl
      | some e =>
        by_cases he : isNotFound e = true
        · simp only [he, if_true]
          rfl
        · simp only [he]
          rfl

theorem callsMeet_cleanupWorkspace (hname : branch.workspaceName = some name)
    (hP : ∀ w c, Call.Local c → P w c) :
    CallsMeet handle outcome P (cleanupWorkspace branch) w ↔
      ((outcome (.listBranchesForProject branch.projectId)).failure = none → ¬ Shared w branch name →
        P w (.wsDelete name)) := by
  rw [cleanupWorkspace, hname]
  refine (and_iff_right (hP w (.listBranchesForProject branch.projectId) trivial)).trans ?_
  show CallsMeet handle outcome P (ofExcept id (orElse (outcome (.listBranchesForProject branch.projectId))
    (w.branchesOf branch.projectId)) >>= _) w ↔ _
  rw [orElse]
  cases (outcome (.listBranchesForProject branch.projectId)).failure with
  | some e => exact ⟨fun _ h => (Option.some_ne_none e h).elim, fun _ => trivial⟩
  | none =>
    show CallsMeet handle outcome P (if inUseElsewhere branch name (w.branchesOf branch.projectId) = true then _ else _) w ↔ _
    by_cases hshared : Shared w branch name
    · rw [if_pos (inUseElsewhere_branchesOf.mpr hshared)]
      exact ⟨fun _ _ h => (h hshared).elim, fun _ => trivial⟩
    · rw [if_neg fun h => hshared (inUseElsewhere_branchesOf.mp h)]
      refine ⟨fun h _ _ => h.1, fun h => ⟨h rfl hshared, ?_⟩⟩
      -- nothing is called after the deletion
      show CallsMeet handle outcome P (match (handle w (.wsDelete name) (outcome (.wsDelete name))).1 with
        | .ok () => _
        | .error e => _) _
      split
      · trivial
      · split <;> trivial

theorem deletes_eq_some : deletes w branch outcome = some name ↔ branch.Uses name ∧ Found w branch outcome ∧
      (outcome (.listBranchesForProject branch.projectId)).failure = none ∧ ¬ Shared w branch name := by
  rw [deletes]
  split
  next h =>
    rw [Option.filter_eq_some_iff, decide_eq_true_iff]
    exact ⟨fun hname => ⟨⟨h.1, hname.1⟩, h.2.1, h.2.2, hname.2⟩, fun hname => ⟨hname.1.2, hname.2.2.2⟩⟩
  next h => exact ⟨fun hname => (by cases hname), fun hname => (h ⟨hname.1.1, hname.2.1, hname.2.2.1⟩).elim⟩

/-- A cleanup deletes one workspace at most, in the state that it finds. -/
theorem callsMeet_cleanup (hP : ∀ w c, Call.Local c → P w c) :
    CallsMeet handle outcome P (cleanupBranchResources branch) w ↔
      ∀ name, deletes w branch outcome = some name → P w (.wsDelete name) := by
  by_cases hfound : Found w branch outcome
  · obtain ⟨project, hiff⟩ := callsMeet_cleanup_of_found hfound hP
    rw [hiff, cleanupRest]
    split
    next htype =>
        refine ⟨fun _ name hname => ?_, fun _ => (sound_cleanupWorkdir project).callsMeet hP⟩
        exact BranchType.noConfusion (htype.symm.trans (deletes_eq_some.mp hname).1.1)
    next htype =>
        cases hname : branch.workspaceName with
        | none =>
          refine ⟨fun _ name h => ?_, fun _ => ?_⟩
          · exact absurd (hname.symm.trans (deletes_eq_some.mp h).1.2) (Option.some_ne_none name).symm
          · show CallsMeet handle outcome P (cleanupWorkspace branch) w
            rw [cleanupWorkspace, hname]
            trivial
        | some name =>
          refine (callsMeet_cleanupWorkspace hname hP).trans ⟨fun h name' h' => ?_, fun h hlist hshared => ?_⟩
          · obtain ⟨huses, -, hlist, hshared⟩ := deletes_eq_some.mp h'
            obtain rfl := Option.some.inj (hname.symm.trans huses.2)
            exact h hlist hshared
          · exact h name (deletes_eq_some.mpr ⟨⟨htype, hname⟩, hfound, hlist, hshared⟩)
  · exact ⟨fun _ name hname => (hfound (deletes_eq_some.mp hname).2.1).elim,
      fun _ => callsMeet_cleanup_of_not_found hfound hP⟩

/-- The cleanup of a branch with a workspace, once the project is found. -/
theorem cleanUp_of_uses (huses : branch.Uses name) (hfound : Found w branch outcome) :
    cleanUp w branch outcome = exec handle outcome (cleanupWorkspace branch) w := by
  obtain ⟨project, hexec⟩ := exec_cleanup_of_found hfound
  rw [hexec, cleanupRest, huses.1]

theorem cleanUp_of_deletes (hdeletes : deletes w branch outcome = some name) : cleanUp w branch outcome =
      match (outcome (.wsDelete name)).wsFailure with
      | none => (.ok (), w.deleteWorkspace name)
      | some e =>
        (if isNotFound e then .ok ()
          else .error ("Failed to delete workspace ".toList ++ name ++ ": ".toList ++ e.display),
          if (outcome (.wsDelete name)).carriedOut then w.deleteWorkspace name else w) := by
  obtain ⟨huses, hfound, hlist, hshared⟩ := deletes_eq_some.mp hdeletes
  rw [cleanUp_of_uses huses hfound, exec_cleanupWorkspace huses.2, hlist]
  exact if_neg hshared

/-- A cleanup that returns leaves the workspace to another branch of the project, or has called `ws_delete`. -/
theorem cleanUp_ok (huses : branch.Uses name) (hok : (cleanUp w branch outcome).1 = .ok ()) :
    Shared w branch name ∧ cleanUp w branch outcome = (.ok (), w) ∨ deletes w branch outcome = some name := by
  by_cases hfound : Found w branch outcome
  · rw [cleanUp_of_uses huses hfound, exec_cleanupWorkspace huses.2] at hok ⊢
    cases hlist : (outcome (.listBranchesForProject branch.projectId)).failure with
    | some e =>
      rw [hlist] at hok
      cases hok
    | none =>
      by_cases hshared : Shared w branch name
      · exact .inl ⟨hshared, if_pos hshared⟩
      · exact .inr (deletes_eq_some.mpr ⟨huses, hfound, hlist, hshared⟩)
  · obtain ⟨e, hexec⟩ := exec_cleanup_of_not_found hfound
    rw [hexec] at hok
    cases hok

end

/-! ## Runs -/

/-- The event is safe: a workspace that is deleted is not that of another remote branch, and it is gone once the row of
its last branch is. -/
def Safe (s : World) : Event → Prop
  | .deleteBranch id bestEffort outcome rowDeleted => ∀ branch, s.branches.find? (·.id = id) = some branch →
      CallsMeet handle outcome (fun w c => ∀ name, c = .wsDelete name → ∀ b ∈ w.branches, b.id ≠ id → ¬ b.Uses name)
        (cleanupBranchResources branch) s ∧
      ((cleanUp s branch outcome).1 = .ok () → rowDeleted = true → ∀ name, branch.Uses name →
        ∀ t, step s (.deleteBranch id bestEffort outcome rowDeleted) = some t → (∀ b ∈ t.branches, ¬ b.Uses name) →
          name ∉ t.workspaces)
  | _ => True

/-- No other project has the workspace that is deleted, and `ws_delete` says that there is none only if so. -/
def Unshared (s : World) (branch : Branch) (f : Outcome) (rowDeleted : Bool) (name : Text) : Prop :=
  (∀ b ∈ s.branches, b.id ≠ branch.id → b.projectId ≠ branch.projectId → ¬ b.Uses name) ∧
    (rowDeleted = true → ∀ e ∈ f.wsFailure, isNotFound e = true → f.carriedOut = false → name ∉ s.workspaces)

instance Unshared.decidable (s : World) (branch : Branch) (f : Outcome) (rowDeleted : Bool) (name : Text) :
    Decidable (Unshared s branch f rowDeleted name) := inferInstanceAs (Decidable (_ ∧ _))

def Guard (s : World) : Event → Prop
  | .deleteBranch id _ outcome rowDeleted => ∀ branch ∈ s.branches.find? (·.id = id),
      ∀ name ∈ deletes s branch outcome, Unshared s branch (outcome (.wsDelete name)) rowDeleted name
  | _ => True

theorem step_deleteBranch {s t : World} {id : Text} {branch : Branch} {bestEffort rowDeleted : Bool}
    {outcome : Call → Outcome} (hbranch : s.branches.find? (·.id = id) = some branch)
    (hexec : cleanUp s branch outcome = (.ok (), t)) (hrow : rowDeleted = true) :
    step s (.deleteBranch id bestEffort outcome rowDeleted) = some (t.deleteBranch id) := by
  rw [step, hbranch, Option.map_some, hexec]
  exact congrArg some (if_pos hrow)

theorem safe_iff_guard (s : World) (event : Event) : Safe s event ↔ Guard s event := by
  cases event with
  | createProject | createBranch | createRemoteBranch | startWorkspace => exact Iff.rfl
  | deleteBranch id bestEffort outcome rowDeleted =>
    refine forall_congr' fun branch => forall_congr' fun hbranch => ?_
    obtain rfl : branch.id = id := by simpa using List.find?_some hbranch
    have hcalls := @callsMeet_cleanup s branch outcome
      (fun w c => ∀ name, c = .wsDelete name → ∀ b ∈ w.branches, b.id ≠ branch.id → ¬ b.Uses name)
      (fun w c hc name hname => by
        subst hname
        exact hc.elim)
    constructor
    · rintro ⟨hsafe, hgone⟩ name hdeletes
      have hfree : ∀ b ∈ s.branches, b.id ≠ branch.id → ¬ b.Uses name := hcalls.mp hsafe name hdeletes name rfl
      refine ⟨fun b hb hid _ => hfree b hb hid, fun hrow e hfailure he hcarried => ?_⟩
      have hexec : cleanUp s branch outcome = (.ok (), s) := by
        rw [cleanUp_of_deletes hdeletes, hfailure]
        simp only [he, hcarried, if_true, Bool.false_eq_true, if_false]
      refine hgone (by rw [hexec]) hrow name (deletes_eq_some.mp hdeletes).1 (s.deleteBranch branch.id)
        (step_deleteBranch hbranch hexec hrow) fun b hb => ?_
      obtain ⟨hmem, hid⟩ := List.mem_filter.mp hb
      exact hfree b hmem (of_decide_eq_true hid)
    · intro hguard
      refine ⟨hcalls.mpr fun name hdeletes name' hname b hb hid huses => ?_, fun hok hrow name huses t hstep hnone => ?_⟩
      · obtain rfl := Call.wsDelete.inj hname
        -- a branch of the same project would have kept the workspace
        by_cases hproject : b.projectId = branch.projectId
        · exact (deletes_eq_some.mp hdeletes).2.2.2 ⟨b, hb, hproject, hid, huses⟩
        · exact (hguard name hdeletes).1 b hb hid hproject huses
      · rcases cleanUp_ok huses hok with ⟨⟨b, hb, -, hid, huses'⟩, hexec⟩ | hdeletes
        · rw [step_deleteBranch hbranch hexec hrow] at hstep
          cases hstep
          exact absurd huses' (hnone b (List.mem_filter.mpr ⟨hb, decide_eq_true hid⟩))
        · have hgone : name ∉ (s.deleteWorkspace name).workspaces := fun hmem =>
            of_decide_eq_true (List.mem_filter.mp hmem).2 rfl
          have hexec : cleanUp s branch outcome = (.ok (), (cleanUp s branch outcome).2) := Prod.ext hok rfl
          rw [step_deleteBranch hbranch hexec hrow] at hstep
          cases hstep
          show name ∉ (cleanUp s branch outcome).2.workspaces
          rw [cleanUp_of_deletes hdeletes] at hok ⊢
          cases hfailure : (outcome (.wsDelete name)).wsFailure with
          | none => exact hgone
          | some e =>
            rw [hfailure] at hok
            by_cases he : isNotFound e = true
            · cases hcarried : (outcome (.wsDelete name)).carriedOut with
              | true => exact hgone
              | false => exact (hguard name hdeletes).2 hrow e hfailure he hcarried
            · simp only [he] at hok
              cases hok

/-- The deletions of a run are safe exactly if all its steps meet the condition. -/
theorem run_safe_iff (s : World) (events : List Event) : Along step Safe s events ↔ Along step Guard s events := by
  have hsame : Safe = Guard := by
    funext s event
    exact propext (safe_iff_guard s event)
  rw [hsame]

instance Guard.decidable (s : World) : ∀ event, Decidable (Guard s event)
  | .deleteBranch id _ outcome rowDeleted =>
    inferInstanceAs (Decidable (∀ branch ∈ s.branches.find? (·.id = id), ∀ name ∈ deletes s branch outcome,
      Unshared s branch (outcome (.wsDelete name)) rowDeleted name))
  | .createProject _ _ | .createBranch _ _ | .createRemoteBranch _ _ _ | .startWorkspace _ => .isTrue trivial

/-- The names of two projects give one workspace, which is deleted with the first of them. -/
theorem run_unsafe :
    ¬ Along step Safe {} [.createProject ['p'] "My App".toList, .createProject ['q'] "my_app".toList,
      .createRemoteBranch ['a'] ['p'] none, .createRemoteBranch ['b'] ['q'] none, .startWorkspace ['a'],
      .deleteBranch ['a'] false (fun _ => {}) true] := by
  have hsame : Safe = Guard := by
    funext s event
    exact propext (safe_iff_guard s event)
  rw [hsame]
  decide

end Builderbot.Staged.WorkspaceDeletion
