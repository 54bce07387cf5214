import Builderbot.Git.Clone
import Builderbot.Lib.Program

/-!
# Clones in workspaces

`clone_repo_into_workspace` and `setup_remote_repo_clone` of `apps/staged/src-tauri/src/branches.rs`, as programs over
the store and over a workspace with the clone at the path of the repo. A command in the workspace may fail, also after
it was carried out.

* `cloneRepoIntoWorkspace_keeps_iff`: a visit of a clone keeps the commits of the local branch exactly if the branch is
  not moved to a commit below or beside its own. A second visit changes nothing.
* `cloneRepoIntoWorkspace_loses` is a visit that loses a commit.
-/

namespace Builderbot.Staged.WorkspaceClone

open Builderbot.Lib.Text Builderbot.Git Program

inductive BloxError where
  | notFound
  | notAuthenticated
  | timeout (secs : ℕ)
  | commandFailed (message : Text)
  | parseError (message : Text)
deriving DecidableEq, Repr

def BloxError.display : BloxError → Text
  | .notFound => "sq CLI not found — is sq installed and on your PATH?".toList
  | .notAuthenticated => "Not authenticated with Blox. Run: sq login".toList
  | .timeout secs => "sq blox command timed out after ".toList ++ decimal secs ++ "s".toList
  | .commandFailed message => "sq blox command failed: ".toList ++ message
  | .parseError message => "failed to parse sq blox output: ".toList ++ message

/-! ## The store and the workspace -/

inductive WorkspaceStatus where
  | starting
  | running
  | stopped
  | suspended
  | error
deriving DecidableEq, Repr

structure Branch where
  projectId : Text
  projectRepoId : Option Text
  branchName : Text
  baseBranch : Text
  workspaceName : Option Text
  workspaceStatus : Option WorkspaceStatus
deriving DecidableEq, Repr

structure Project where
  name : Text
  primaryRepo : Option Text
deriving DecidableEq, Repr

structure ProjectRepo where
  githubRepo : Text
  subpath : Option Text
deriving DecidableEq, Repr

structure Remote (κ : Type) where
  branches : Table Text κ := ∅
  defaultBranch : Text

structure World (κ : Type) where
  branches : Table Text Branch := ∅
  projects : Table Text Project := ∅
  projectRepos : Table Text ProjectRepo := ∅
  remote : Remote κ
  /-- The clone at the path of the repo. -/
  clone : Option (Clone κ)

inductive Call where
  | getBranch (id : Text)
  | getProject (id : Text)
  | getProjectRepo (id : Text)
  | updateBranchWorkspaceStatus (id : Text) (status : WorkspaceStatus)
  /-- `test -d`. -/
  | testDir (path : Text)
  | gitClone (url path : Text)
  /-- `apply_to_blox_clone`. -/
  | applyConfig (path : Text)
  | fetch (name : Text)
  /-- `git checkout -B`. -/
  | checkoutReset (branch startPoint : Text)
deriving DecidableEq, Repr

abbrev Reply : Call → Type
  | .getBranch _ => Except Text (Option Branch)
  | .getProject _ => Except Text (Option Project)
  | .getProjectRepo _ => Except Text (Option ProjectRepo)
  | .updateBranchWorkspaceStatus _ _ => Except Text Unit
  | .testDir _ | .gitClone _ _ | .fetch _ | .checkoutReset _ _ => Except BloxError Unit
  | .applyConfig _ => Unit

/-- What comes from outside at a call. -/
structure Outcome where
  storeFailure : Option Text := none
  failure : Option BloxError := none
  /-- A command that failed was carried out. -/
  carriedOut : Bool := false
  /-- The message of a command that cannot succeed. -/
  message : Text := []
deriving DecidableEq, Repr

/-- The command is carried out if it can be. -/
def Outcome.Done (f : Outcome) : Prop := f.failure = none ∨ f.carriedOut = true

instance Outcome.decidableDone (f : Outcome) : Decidable f.Done := inferInstanceAs (Decidable (_ ∨ _))

/-- A command with its effect, which is `none` if it cannot succeed. -/
def command {σ : Type} (s : σ) (f : Outcome) : Option σ → Except BloxError Unit × σ
  | none => (.error (f.failure.getD (.commandFailed f.message)), s)
  | some after =>
    match f.failure with
    | none => (.ok (), after)
    | some e => (.error e, if f.carriedOut then after else s)

section

variable {κ : Type} (commits : Commits κ) (ignored : Text → Bool)

namespace World

variable (w : World κ)

/-- The clone after `git fetch origin` with the name of a branch. -/
def fetch (name : Text) : Option (World κ) :=
  (w.remote.branches.lookup name).bind fun target =>
    w.clone.map fun clone => { w with clone := some { clone with originRefs := clone.originRefs.insert name target } }

def checkoutReset (branch startPoint : Text) : Option (World κ) :=
  w.clone.bind fun clone => (clone.checkoutReset commits ignored branch startPoint).map fun after =>
    { w with clone := some after }

/-- A new clone has the default branch checked out. -/
def gitClone : Option (World κ) :=
  if w.clone.isSome then none
  else
    let files := ((w.remote.branches.lookup w.remote.defaultBranch).map commits.tree).getD ∅
    some { w with
      clone := some
        { head := .on w.remote.defaultBranch
          branches := w.remote.branches.retain fun name _ => name = w.remote.defaultBranch
          originRefs := w.remote.branches
          index := files
          worktree := files } }

/-- A row of the store. -/
def read {α : Type} (f : Outcome) (row : Option α) : Except Text (Option α) × World κ :=
  match f.storeFailure with
  | some e => (.error e, w)
  | none => (.ok row, w)

end World

def handle (w : World κ) : (c : Call) → Outcome → Reply c × World κ
  | .getBranch id, f => w.read f (w.branches.lookup id)
  | .getProject id, f => w.read f (w.projects.lookup id)
  | .getProjectRepo id, f => w.read f (w.projectRepos.lookup id)
  | .updateBranchWorkspaceStatus id status, f =>
    match f.storeFailure with
    | some e => (.error e, w)
    | none =>
      match w.branches.lookup id with
      | some branch => (.ok (), { w with branches := w.branches.insert id { branch with workspaceStatus := some status } })
      | none => (.ok (), w)
  | .testDir _, f => ((command () f (if w.clone.isSome then some () else none)).1, w)
  | .gitClone _ _, f => command w f (w.gitClone commits)
  | .applyConfig _, _ => ((), w)
  | .fetch name, f => command w f (w.fetch name)
  | .checkoutReset branch startPoint, f => command w f (w.checkoutReset commits ignored branch startPoint)

end

/-! ## The programs -/

abbrev WorkspaceM (α : Type) := Program Call Reply Text α

def ask (c : Call) : WorkspaceM (Reply c) := perform c

def resolveWorkspaceRepoPath (repoSubpath : Text) : Text :=
  if "home:".toList <+: repoSubpath then "/home/bloxer/".toList ++ repoSubpath.drop 5 else repoSubpath

/-- The clone is made if there is none. -/
def ensureCloned (wsName repoSubpath repoSlug : Text) : WorkspaceM Unit := do
  let repoPath := resolveWorkspaceRepoPath repoSubpath
  match (← ask (.testDir (repoPath ++ "/.git".toList)) : Except BloxError Unit) with
  | .ok () => return ()
  | .error (.commandFailed _) =>
    let repoUrl := "https://github.com/".toList ++ repoSlug ++ ".git".toList
    ofExcept (fun e => "Failed to clone '".toList ++ repoSlug ++ "' into workspace '".toList ++ wsName ++ "': ".toList ++
      BloxError.display e) (← ask (.gitClone repoUrl repoPath) : Except BloxError Unit)
  | .error e =>
    .fail ("Failed to verify repo path '".toList ++ repoSubpath ++ "' in workspace '".toList ++ wsName ++ "': ".toList ++
      e.display)

/-- `has_remote_branch`. -/
def fetchBranch (baseRef branchName : Text) : WorkspaceM Bool := do
  if branchName ≠ baseRef then
    match (← ask (.fetch branchName) : Except BloxError Unit) with
    | .ok () => return true
    | .error _ => return false
  else return false

def cloneRepoIntoWorkspace (wsName repoSubpath repoSlug baseRef branchName : Text) : WorkspaceM Unit := do
  ensureCloned wsName repoSubpath repoSlug
  ask (.applyConfig (resolveWorkspaceRepoPath repoSubpath))
  ofExcept (fun e => "Failed to fetch base branch '".toList ++ baseRef ++ "' for '".toList ++ repoSlug ++
    "' in workspace '".toList ++ wsName ++ "': ".toList ++ BloxError.display e) (← ask (.fetch baseRef) : Except BloxError Unit)
  let hasRemoteBranch ← fetchBranch baseRef branchName
  let startPoint := "origin/".toList ++ if hasRemoteBranch then branchName else baseRef
  ofExcept (fun e => "Failed to create branch '".toList ++ branchName ++ "' for '".toList ++ repoSlug ++
    "' in workspace '".toList ++ wsName ++ "': ".toList ++ BloxError.display e)
    (← ask (.checkoutReset branchName startPoint) : Except BloxError Unit)

/-! ### From the store -/

def normalizeBranchRef (branch : Text) : Text := if "origin/".toList <+: branch then branch.drop 7 else branch

def repoNameFromGithubRepo (githubRepo : Text) : Text :=
  let raw := (githubRepo.splitOn '/').getLast?.getD githubRepo
  let replaced := raw.map fun c => if c.isAlphanum ∨ c = '-' ∨ c = '_' ∨ c = '.' then c else '-'
  let collapsed := ['-'].intercalate ((replaced.splitOn '-').filter (· ≠ []))
  if collapsed.isEmpty then "repo".toList else collapsed

/-- `trim_matches('/')`. -/
def trimSlashes (s : Text) : Text := ((s.dropWhile (· = '/')).reverse.dropWhile (· = '/')).reverse

/-- Without a leading slash the path is relative. -/
def validateWorkspaceSubpath (subpath : Text) : Except Text Text :=
  let trimmed := trimSlashes (trim subpath)
  if trimmed.isEmpty then .error "Workspace subpath must not be empty".toList
  else if (trimmed.splitOn '/').any fun segment => segment.isEmpty ∨ segment = ['.'] ∨ segment = ['.', '.'] then
    .error ("Workspace subpath '".toList ++ trimmed ++ "' contains an invalid path segment".toList)
  else .ok trimmed

def resolveBranchWorkspaceSubpath (branch : Branch) : WorkspaceM (Option Text) := do
  match branch.projectRepoId with
  | none => return none
  | some repoId =>
    match ← ofExcept id (← ask (.getProjectRepo repoId) : Except Text (Option ProjectRepo)) with
    | none => return none
    | some repo =>
      let cloneDir := "home:".toList ++ repoNameFromGithubRepo repo.githubRepo
      match repo.subpath with
      | some subpath => return some (cloneDir ++ "/".toList ++ (← ofExcept id (validateWorkspaceSubpath subpath)))
      | none => return some cloneDir

def projectPrimaryRepo (project : Project) : Except Text Text :=
  match project.primaryRepo with
  | some repo => .ok repo
  | none => .error ("Project '".toList ++ project.name ++ "' has no repository attached".toList)

def resolveBranchRepoSlug (project : Project) (branch : Branch) : WorkspaceM Text := do
  match branch.projectRepoId with
  | none => ofExcept id (projectPrimaryRepo project)
  | some repoId =>
    match ← ofExcept id (← ask (.getProjectRepo repoId) : Except Text (Option ProjectRepo)) with
    | some repo => return repo.githubRepo
    | none => ofExcept id (projectPrimaryRepo project)

def setupRemoteRepoClone (branchId : Text) : WorkspaceM Unit := do
  let branch ← ofOption ("Branch not found: ".toList ++ branchId)
    (← ofExcept id (← ask (.getBranch branchId) : Except Text (Option Branch)))
  let project ← ofOption ("Project not found: ".toList ++ branch.projectId)
    (← ofExcept id (← ask (.getProject branch.projectId) : Except Text (Option Project)))
  let wsName ← ofOption "Branch has no workspace name".toList branch.workspaceName
  let repoSubpath ← ofOption "Branch has no workspace subpath".toList (← resolveBranchWorkspaceSubpath branch)
  let refName := normalizeBranchRef branch.baseBranch
  let repoSlug ← resolveBranchRepoSlug project branch
  cloneRepoIntoWorkspace wsName repoSubpath repoSlug refName branch.branchName
  ofExcept id (← ask (.updateBranchWorkspaceStatus branchId .running) : Except Text Unit)

/-! ## Refs -/

section

variable {κ : Type} (remote : Remote κ) (outcome : Call → Outcome)

/-- The fetch of a branch succeeds. -/
def Fetched (name : Text) : Prop := (outcome (.fetch name)).failure = none ∧ (remote.branches.lookup name).isSome = true

instance Fetched.decidable (name : Text) : Decidable (Fetched remote outcome name) := inferInstanceAs (Decidable (_ ∧ _))

/-- The remote-tracking branches after a fetch. -/
def fetchInto (name : Text) (refs : Table Text κ) : Table Text κ :=
  match remote.branches.lookup name with
  | some target => if (outcome (.fetch name)).Done then refs.insert name target else refs
  | none => refs

variable {remote outcome}

theorem lookup_fetchInto (name : Text) (refs : Table Text κ) (other : Text) :
    (fetchInto remote outcome name refs).lookup other =
      if other = name ∧ (outcome (.fetch name)).Done then (remote.branches.lookup name).or (refs.lookup other)
      else refs.lookup other := by
  rw [fetchInto]
  cases htarget : remote.branches.lookup name with
  | none => simp only [Option.none_or, ite_self]
  | some target =>
    by_cases hdone : (outcome (.fetch name)).Done
    · by_cases hname : other = name
      · subst hname
        simp only [hdone, if_true, and_self, AList.lookup_insert, Option.some_or]
      · simp only [hdone, if_true, hname, false_and, if_false, AList.lookup_insert_ne hname]
    · simp only [hdone, if_false, and_false]

theorem lookup_fetchInto_of_fetched {name : Text} (h : Fetched remote outcome name) (refs : Table Text κ) :
    (fetchInto remote outcome name refs).lookup name = remote.branches.lookup name := by
  obtain ⟨target, htarget⟩ := Option.isSome_iff_exists.mp h.2
  rw [lookup_fetchInto, if_pos ⟨rfl, .inl h.1⟩, htarget, Option.some_or]

variable (remote outcome)

/-- The remote-tracking branches after a visit. -/
def fetchBoth (baseRef branchName : Text) (refs : Table Text κ) : Table Text κ :=
  if branchName ≠ baseRef then fetchInto remote outcome branchName (fetchInto remote outcome baseRef refs)
  else fetchInto remote outcome baseRef refs

/-- The branch of the origin that the visit starts from. -/
def startName (baseRef branchName : Text) : Text :=
  if branchName ≠ baseRef ∧ Fetched remote outcome branchName then branchName else baseRef

variable {remote outcome}

/-- Fetching again changes nothing. -/
theorem lookup_fetchBoth_again (baseRef branchName : Text) (refs refs' : Table Text κ)
    (hrefs : ∀ name, refs'.lookup name = (fetchBoth remote outcome baseRef branchName refs).lookup name) (name : Text) :
    (fetchBoth remote outcome baseRef branchName refs').lookup name = refs'.lookup name := by
  rw [hrefs]
  simp only [fetchBoth] at hrefs ⊢
  split
  next hne =>
    rw [if_pos hne] at hrefs
    simp only [lookup_fetchInto, hrefs]
    cases remote.branches.lookup branchName <;> cases remote.branches.lookup baseRef <;> grind
  next hne =>
    rw [if_neg hne] at hrefs
    simp only [lookup_fetchInto, hrefs]
    cases remote.branches.lookup baseRef <;> grind

theorem lookup_fetchBoth_start {baseRef branchName : Text} (hbase : Fetched remote outcome baseRef) (refs : Table Text κ) :
    (fetchBoth remote outcome baseRef branchName refs).lookup (startName remote outcome baseRef branchName) =
      remote.branches.lookup (startName remote outcome baseRef branchName) := by
  rw [fetchBoth, startName]
  by_cases hne : branchName ≠ baseRef
  · rw [if_pos hne]
    by_cases hbranch : Fetched remote outcome branchName
    · rw [if_pos ⟨hne, hbranch⟩]
      exact lookup_fetchInto_of_fetched hbranch _
    · rw [if_neg fun h => hbranch h.2, lookup_fetchInto, if_neg fun h => hne h.1.symm]
      exact lookup_fetchInto_of_fetched hbase refs
  · rw [if_neg hne, if_neg fun h => hne h.1]
    exact lookup_fetchInto_of_fetched hbase refs

end

/-! ## A visit -/

section

variable {κ : Type} {commits : Commits κ} {ignored : Text → Bool} {outcome : Call → Outcome}

theorem command_map {σ τ : Type} (g : σ → τ) (s : σ) (f : Outcome) (effect : Option σ) :
    command (g s) f (effect.map g) = ((command s f effect).1, g (command s f effect).2) := by
  cases effect with
  | none => rfl
  | some after =>
    simp only [command, Option.map_some]
    cases f.failure with
    | none => rfl
    | some e => exact congrArg (Prod.mk _) (apply_ite g _ after s).symm

theorem command_state {σ : Type} (s : σ) (f : Outcome) (effect : Option σ) :
    (command s f effect).2 = if f.Done then effect.getD s else s := by
  cases effect with
  | none => exact (ite_self s).symm
  | some after =>
    by_cases hfailure : f.failure = none
    · rw [if_pos (.inl hfailure)]
      simp only [command, hfailure, Option.getD_some]
    · obtain ⟨e, he⟩ := Option.ne_none_iff_exists'.mp hfailure
      simp only [command, Outcome.Done, he, reduceCtorEq, false_or, Option.getD_some]

theorem command_reply {σ : Type} (s : σ) (f : Outcome) (effect : Option σ) :
    (command s f effect).1 = if f.failure = none ∧ effect.isSome = true then .ok ()
      else .error (f.failure.getD (.commandFailed f.message)) := by
  cases effect with
  | none => exact (if_neg fun h => Bool.false_ne_true h.2).symm
  | some after =>
    rw [command]
    cases f.failure with
    | none => exact (if_pos ⟨rfl, rfl⟩).symm
    | some e => exact (if_neg fun h => Option.some_ne_none e h.1).symm

/-- The world with another clone. -/
abbrev World.withClone (w : World κ) (clone : Clone κ) : World κ := { w with clone := some clone }

variable (w : World κ)

theorem handle_fetch (clone : Clone κ) (name : Text) :
    handle commits ignored (w.withClone clone) (.fetch name) (outcome (.fetch name)) =
      (if Fetched w.remote outcome name then .ok ()
        else .error ((outcome (.fetch name)).failure.getD (.commandFailed (outcome (.fetch name)).message)),
        w.withClone { clone with originRefs := fetchInto w.remote outcome name clone.originRefs }) := by
  have hsome : ((w.withClone clone).fetch name).isSome = (w.remote.branches.lookup name).isSome := by
    rw [World.fetch]
    cases w.remote.branches.lookup name <;> rfl
  rw [handle, Prod.ext_iff]
  constructor
  · rw [command_reply, hsome]
    rfl
  · rw [command_state, World.fetch, fetchInto]
    cases w.remote.branches.lookup name with
    | none => exact ite_self _
    | some target =>
      by_cases hdone : (outcome (.fetch name)).Done
      · rw [if_pos hdone]
        simp only [if_pos hdone, Option.bind_some, Option.map_some, Option.getD_some]
      · rw [if_neg hdone]
        simp only [if_neg hdone]

theorem handle_checkoutReset (clone : Clone κ) (branch startPoint : Text) (f : Outcome) :
    handle commits ignored (w.withClone clone) (.checkoutReset branch startPoint) f =
      ((command clone f (clone.checkoutReset commits ignored branch startPoint)).1,
        w.withClone (command clone f (clone.checkoutReset commits ignored branch startPoint)).2) :=
  command_map w.withClone clone f (clone.checkoutReset commits ignored branch startPoint)

variable (wsName repoSubpath repoSlug baseRef branchName : Text)

/-- The clone is found. -/
def Tested (outcome : Call → Outcome) (repoSubpath : Text) : Prop :=
  (outcome (.testDir (resolveWorkspaceRepoPath repoSubpath ++ "/.git".toList))).failure = none

instance Tested.decidable : Decidable (Tested outcome repoSubpath) := inferInstanceAs (Decidable (_ = _))

theorem exec_ensureCloned (h : Tested outcome repoSubpath) (clone : Clone κ) :
    exec (handle commits ignored) outcome (ensureCloned wsName repoSubpath repoSlug) (w.withClone clone) =
      (.ok (), w.withClone clone) := by
  rw [Tested] at h
  simp only [ensureCloned, ask, exec_perform_bind, handle, command, h]
  rfl

/-- An existing clone cannot be made again. -/
theorem exec_ensureCloned_error (h : ¬ Tested outcome repoSubpath) :
    ∃ e, ∀ clone : Clone κ, exec (handle commits ignored) outcome (ensureCloned wsName repoSubpath repoSlug)
      (w.withClone clone) = (.error e, w.withClone clone) := by
  rw [Tested] at h
  obtain ⟨e, he⟩ := Option.ne_none_iff_exists'.mp h
  cases e with
  | commandFailed message =>
    -- what `git clone` says of the path that exists
    let f := outcome (.gitClone ("https://github.com/".toList ++ repoSlug ++ ".git".toList)
      (resolveWorkspaceRepoPath repoSubpath))
    refine ⟨"Failed to clone '".toList ++ repoSlug ++ "' into workspace '".toList ++ wsName ++ "': ".toList ++
      (f.failure.getD (.commandFailed f.message)).display, fun clone => ?_⟩
    simp only [ensureCloned, ask, exec_perform_bind, handle, command, he]
    rfl
  | notFound | notAuthenticated | timeout secs | parseError message =>
    refine ⟨"Failed to verify repo path '".toList ++ repoSubpath ++ "' in workspace '".toList ++ wsName ++ "': ".toList ++
      ((outcome (.testDir (resolveWorkspaceRepoPath repoSubpath ++ "/.git".toList))).failure.getD .notFound).display,
      fun clone => ?_⟩
    simp only [ensureCloned, ask, exec_perform_bind, handle, command, he]
    rfl

theorem exec_of_not_tested (h : ¬ Tested outcome repoSubpath) :
    ∃ e, ∀ clone : Clone κ, exec (handle commits ignored) outcome
      (cloneRepoIntoWorkspace wsName repoSubpath repoSlug baseRef branchName) (w.withClone clone) =
        (.error e, w.withClone clone) := by
  obtain ⟨e, hexec⟩ := exec_ensureCloned_error w wsName repoSubpath repoSlug h
  refine ⟨e, fun clone => ?_⟩
  rw [cloneRepoIntoWorkspace, exec_bind, hexec clone]

theorem exec_fetchBranch (clone : Clone κ) :
    exec (handle commits ignored) outcome (fetchBranch baseRef branchName) (w.withClone clone) =
      (.ok (decide (branchName ≠ baseRef ∧ Fetched w.remote outcome branchName)),
        w.withClone (if branchName ≠ baseRef then
          { clone with originRefs := fetchInto w.remote outcome branchName clone.originRefs } else clone)) := by
  rw [fetchBranch]
  by_cases hne : branchName ≠ baseRef
  · rw [if_pos hne, if_pos hne, ask, exec_perform_bind, handle_fetch]
    by_cases hfetched : Fetched w.remote outcome branchName
    · rw [if_pos hfetched, decide_eq_true ⟨hne, hfetched⟩]
      rfl
    · rw [if_neg hfetched, decide_eq_false fun h => hfetched h.2]
      rfl
  · rw [if_neg hne, if_neg hne, decide_eq_false fun h => hne h.1]
    rfl

/-- The fetch of the base fails. -/
theorem exec_of_not_fetched (htest : Tested outcome repoSubpath) (h : ¬ Fetched w.remote outcome baseRef) :
    ∃ e, ∀ clone : Clone κ, exec (handle commits ignored) outcome
      (cloneRepoIntoWorkspace wsName repoSubpath repoSlug baseRef branchName) (w.withClone clone) =
        (.error e, w.withClone { clone with originRefs := fetchInto w.remote outcome baseRef clone.originRefs }) := by
  let f := outcome (.fetch baseRef)
  refine ⟨"Failed to fetch base branch '".toList ++ baseRef ++ "' for '".toList ++ repoSlug ++
    "' in workspace '".toList ++ wsName ++ "': ".toList ++ (f.failure.getD (.commandFailed f.message)).display,
    fun clone => ?_⟩
  rw [cloneRepoIntoWorkspace, exec_bind, exec_ensureCloned w wsName repoSubpath repoSlug htest]
  show exec _ _ (ofExcept _ (handle commits ignored (w.withClone clone) (.fetch baseRef) f).1 >>= _)
    (handle commits ignored (w.withClone clone) (.fetch baseRef) f).2 = _
  rw [handle_fetch, if_neg h]
  rfl

/-- Both fetches are done, and the branch is moved. -/
theorem exec_of_fetched (htest : Tested outcome repoSubpath) (h : Fetched w.remote outcome baseRef) (clone : Clone κ) :
    let fetched : Clone κ := { clone with originRefs := fetchBoth w.remote outcome baseRef branchName clone.originRefs }
    let startPoint := "origin/".toList ++ startName w.remote outcome baseRef branchName
    let moved := command fetched (outcome (.checkoutReset branchName startPoint))
      (fetched.checkoutReset commits ignored branchName startPoint)
    exec (handle commits ignored) outcome
      (cloneRepoIntoWorkspace wsName repoSubpath repoSlug baseRef branchName) (w.withClone clone) =
        (moved.1.mapError fun e => "Failed to create branch '".toList ++ branchName ++ "' for '".toList ++ repoSlug ++
          "' in workspace '".toList ++ wsName ++ "': ".toList ++ e.display, w.withClone moved.2) := by
  intro fetched startPoint moved
  have hstart : ("origin/".toList ++ if decide (branchName ≠ baseRef ∧ Fetched w.remote outcome branchName) = true
      then branchName else baseRef) = startPoint := by
    simp only [decide_eq_true_eq]
    rfl
  have hfetched : (if branchName ≠ baseRef then
      { clone with originRefs := fetchInto w.remote outcome branchName (fetchInto w.remote outcome baseRef clone.originRefs) }
      else { clone with originRefs := fetchInto w.remote outcome baseRef clone.originRefs } : Clone κ) = fetched :=
    (apply_ite (fun refs => { clone with originRefs := refs }) _ _ _).symm
  rw [cloneRepoIntoWorkspace, exec_bind, exec_ensureCloned w wsName repoSubpath repoSlug htest]
  show exec _ _ (ofExcept _ (handle commits ignored (w.withClone clone) (.fetch baseRef) (outcome (.fetch baseRef))).1 >>= _)
    (handle commits ignored (w.withClone clone) (.fetch baseRef) (outcome (.fetch baseRef))).2 = _
  rw [handle_fetch, if_pos h]
  show exec _ _ (fetchBranch baseRef branchName >>= _) _ = _
  rw [exec_bind, exec_fetchBranch, hfetched]
  show exec _ _ (perform _ >>= _) _ = _
  rw [exec_perform_bind, exec_ofExcept, handle_checkoutReset, hstart]

/-! ## What is kept -/

/-- The commits that the branch had are reachable from it. -/
def Keeps (commits : Commits κ) (branchName : Text) (clone after : Clone κ) : Prop :=
  ∀ old, clone.branches.lookup branchName = some old → ∀ commit, commits.Reaches old commit →
    ∃ new, after.branches.lookup branchName = some new ∧ commits.Reaches new commit

variable (commits ignored outcome) in
/-- The commit that the branch is moved to, if it is moved: the clone is found, the base is fetched, and git carries out
the checkout. A local branch with the name of the start point comes before that of the origin. -/
def movedTo (remote : Remote κ) (clone : Clone κ) : Option κ :=
  let start := startName remote outcome baseRef branchName
  if Tested outcome repoSubpath ∧ Fetched remote outcome baseRef then
    ((clone.branches.lookup ("origin/".toList ++ start)).or (remote.branches.lookup start)).filter fun target =>
      clone.bare = false ∧ (outcome (.checkoutReset branchName ("origin/".toList ++ start))).Done ∧
        (clone.switchTree commits ignored (commits.tree target)).isSome
  else none

variable (commits ignored outcome) in
/-- The branch is not there, or is only moved to a commit above its own. -/
def MovesUp (remote : Remote κ) (clone : Clone κ) : Prop :=
  ∀ old ∈ clone.branches.lookup branchName,
    ∀ target ∈ movedTo commits ignored outcome repoSubpath baseRef branchName remote clone, commits.Reaches target old

/-- `clone_repo_into_workspace` with a clone. -/
abbrev visit (commits : Commits κ) (ignored : Text → Bool) (outcome : Call → Outcome) (w : World κ)
    (wsName repoSubpath repoSlug baseRef branchName : Text) (clone : Clone κ) : Except Text Unit × World κ :=
  exec (handle commits ignored) outcome (cloneRepoIntoWorkspace wsName repoSubpath repoSlug baseRef branchName)
    (w.withClone clone)

theorem resolve_start (hbase : Fetched w.remote outcome baseRef) (clone : Clone κ) :
    ({ clone with originRefs := fetchBoth w.remote outcome baseRef branchName clone.originRefs } : Clone κ).resolve
        ("origin/".toList ++ startName w.remote outcome baseRef branchName) =
      (clone.branches.lookup ("origin/".toList ++ startName w.remote outcome baseRef branchName)).or
        (w.remote.branches.lookup (startName w.remote outcome baseRef branchName)) := by
  have hdrop : ("origin/".toList ++ startName w.remote outcome baseRef branchName).drop 7 =
      startName w.remote outcome baseRef branchName := List.drop_left' rfl
  rw [Clone.resolve, if_pos (List.prefix_append _ _), hdrop, lookup_fetchBoth_start hbase]
  cases clone.branches.lookup ("origin/".toList ++ startName w.remote outcome baseRef branchName) <;> rfl

section

variable {fetched : Clone κ} {branch startPoint : Text} (f : Outcome)

/-- Where the branch is after a command that moves it. -/
theorem lookup_moved :
    (command fetched f (fetched.checkoutReset commits ignored branch startPoint)).2.branches.lookup branch =
      ((fetched.resolve startPoint).filter fun target => decide (fetched.bare = false ∧ f.Done ∧
        (fetched.switchTree commits ignored (commits.tree target)).isSome = true)).or (fetched.branches.lookup branch) := by
  rw [command_state]
  cases hreset : fetched.checkoutReset commits ignored branch startPoint with
  | none =>
    have hnone : ((fetched.resolve startPoint).filter fun target => decide (fetched.bare = false ∧ f.Done ∧
        (fetched.switchTree commits ignored (commits.tree target)).isSome = true)) = none := by
      refine Option.eq_none_iff_forall_ne_some.mpr fun target htarget => ?_
      obtain ⟨hresolve, hmoves⟩ := Option.filter_eq_some_iff.mp htarget
      obtain ⟨hbare, -, hswitch⟩ := of_decide_eq_true hmoves
      obtain ⟨switched, hswitched⟩ := Option.isSome_iff_exists.mp hswitch
      rw [Clone.checkoutReset_eq_some.mpr ⟨hbare, target, hresolve, switched, hswitched, rfl⟩] at hreset
      exact Option.some_ne_none _ hreset
    rw [hnone, Option.getD_none, ite_self, Option.none_or]
  | some after =>
    obtain ⟨hbare, target, hresolve, switched, hswitch, rfl⟩ := Clone.checkoutReset_eq_some.mp hreset
    rw [hresolve]
    have hsome : (fetched.switchTree commits ignored (commits.tree target)).isSome = true := by
      rw [hswitch]
      rfl
    rw [Option.filter_some]
    by_cases hdone : f.Done
    · rw [if_pos hdone, if_pos (decide_eq_true ⟨hbare, hdone, hsome⟩), Option.some_or]
      exact AList.lookup_insert _
    · rw [if_neg hdone, if_neg fun h => hdone (of_decide_eq_true h).2.1, Option.none_or]

theorem originRefs_moved : (command fetched f (fetched.checkoutReset commits ignored branch startPoint)).2.originRefs =
    fetched.originRefs := by
  rw [command_state]
  cases hreset : fetched.checkoutReset commits ignored branch startPoint with
  | none => rw [Option.getD_none, ite_self]
  | some after =>
    rw [Option.getD_some]
    split
    · exact Clone.checkoutReset_originRefs hreset
    · rfl

abbrev withRefs (refs : Table Text κ) (clone : Clone κ) : Clone κ := { clone with originRefs := refs }

/-- Moving a branch again changes nothing. -/
theorem command_again {refs : Table Text κ} (hrefs : ∀ name, refs.lookup name = fetched.originRefs.lookup name) :
    let moved := command fetched f (fetched.checkoutReset commits ignored branch startPoint)
    ∃ again, command (withRefs refs moved.2) f ((withRefs refs moved.2).checkoutReset commits ignored branch startPoint) =
      (moved.1, again) ∧ moved.2.Same again := by
  intro moved
  -- the reset was done, or nothing has moved
  by_cases hafter : ∃ after, f.Done ∧ fetched.checkoutReset commits ignored branch startPoint = some after
  · obtain ⟨after, hdone, hreset⟩ := hafter
    have hmoved : moved.2 = after := by
      rw [command_state, if_pos hdone, hreset, Option.getD_some]
    have hrefs' (name : Text) : refs.lookup name = after.originRefs.lookup name := by
      rw [Clone.checkoutReset_originRefs hreset, hrefs]
    obtain ⟨again, hagain, hsame⟩ := Clone.checkoutReset_again hreset
    rw [hmoved, Clone.checkoutReset_refs hrefs', hagain, command_map (withRefs refs) after]
    refine ⟨_, Prod.ext ?_ rfl, ?_⟩
    · show (command after f (some again)).1 = (command fetched f _).1
      rw [command_reply, command_reply, hreset]
      rfl
    · rw [command_state, if_pos hdone, Option.getD_some]
      exact ⟨hsame.head, hsame.bare, hsame.branches, hrefs', hsame.index, hsame.worktree⟩
  · have hmoved : moved.2 = fetched := by
      rw [command_state]
      split
      next hdone =>
        cases hreset : fetched.checkoutReset commits ignored branch startPoint with
        | none => rfl
        | some after => exact absurd ⟨after, hdone, hreset⟩ hafter
      next => rfl
    rw [hmoved, Clone.checkoutReset_refs hrefs, command_map (withRefs refs) fetched]
    refine ⟨_, rfl, ?_⟩
    show fetched.Same (withRefs refs moved.2)
    rw [hmoved]
    exact Clone.Same.of_refs hrefs

end

/-- A second visit changes nothing, and the branch is where the first one moved it. -/
theorem visit_again (clone : Clone κ) : ∃ r after again,
    visit commits ignored outcome w wsName repoSubpath repoSlug baseRef branchName clone = (r, w.withClone after) ∧
    visit commits ignored outcome w wsName repoSubpath repoSlug baseRef branchName after = (r, w.withClone again) ∧
    after.Same again ∧
    after.branches.lookup branchName =
      (movedTo commits ignored outcome repoSubpath baseRef branchName w.remote clone).or (clone.branches.lookup branchName) := by
  -- a visit stops at the test, or at the fetch, or comes to the reset
  by_cases htest : Tested outcome repoSubpath
  · by_cases hbase : Fetched w.remote outcome baseRef
    · let fetched : Clone κ :=
        { clone with originRefs := fetchBoth w.remote outcome baseRef branchName clone.originRefs }
      let startPoint := "origin/".toList ++ startName w.remote outcome baseRef branchName
      let f := outcome (.checkoutReset branchName startPoint)
      have hexec := @exec_of_fetched κ commits ignored outcome w wsName repoSubpath repoSlug baseRef branchName
        htest hbase
      have hrefs (name : Text) := @lookup_fetchBoth_again κ w.remote outcome baseRef branchName
        clone.originRefs (command fetched f (fetched.checkoutReset commits ignored branchName startPoint)).2.originRefs
        (fun name => by rw [originRefs_moved]) name
      obtain ⟨again, hagain, hsame⟩ := @command_again κ commits ignored fetched branchName startPoint f _
        (fun name => (hrefs name).trans (by rw [originRefs_moved]))
      refine ⟨_, _, again, hexec clone, (hexec _).trans ?_, hsame, ?_⟩
      · rw [hagain]
      · rw [lookup_moved, movedTo, if_pos ⟨htest, hbase⟩, resolve_start w baseRef branchName hbase]
        simp only [Clone.switchTree_refs, Option.isSome_map]
    · obtain ⟨e, hexec⟩ := exec_of_not_fetched w wsName repoSubpath repoSlug
        baseRef branchName htest hbase
      refine ⟨_, _, _, hexec clone, hexec _, Clone.Same.of_refs fun name => ?_, ?_⟩
      · rw [lookup_fetchInto, lookup_fetchInto]
        split
        next => rw [← Option.or_assoc, Option.or_self]
        next => rfl
      · rw [movedTo, if_neg fun h => hbase h.2]
        rfl
  · obtain ⟨e, hexec⟩ := exec_of_not_tested w wsName repoSubpath repoSlug
      baseRef branchName htest
    refine ⟨_, clone, clone, hexec clone, hexec clone, Clone.Same.of_refs fun _ => rfl, ?_⟩
    rw [movedTo, if_neg fun h => htest h.1]
    rfl

theorem keeps_iff {clone after : Clone κ} (h : after.branches.lookup branchName =
      (movedTo commits ignored outcome repoSubpath baseRef branchName w.remote clone).or (clone.branches.lookup branchName)) :
    Keeps commits branchName clone after ↔
      MovesUp commits ignored outcome repoSubpath baseRef branchName w.remote clone := by
  constructor
  · intro hkeeps old hold target htarget
    obtain ⟨new, hnew, hreach⟩ := hkeeps old hold old (.refl old)
    rw [h, Option.mem_def.mp htarget, Option.some_or] at hnew
    exact Option.some.inj hnew ▸ hreach
  · intro hup old hold commit hcommit
    rw [h]
    cases hmoved : movedTo commits ignored outcome repoSubpath baseRef branchName w.remote clone with
    | none => exact ⟨old, hold, hcommit⟩
    | some target => exact ⟨target, rfl, (hup old hold target hmoved).trans hcommit⟩

end

/-- One commit after the other. -/
def line : Commits ℕ where
  parents n := if n = 0 then [] else [n - 1]
  depth := id
  depth_lt c p hp := by
    split at hp
    · cases hp
    · rw [List.mem_singleton.mp hp]
      exact Nat.sub_one_lt ‹_›
  tree _ := ∅

/-- The branch `f` has the commit 1, which was not pushed. -/
def unpushed : Clone ℕ :=
  { head := .on ['f']
    branches := AList.insert ['f'] 1 (AList.insert ['m'] 0 ∅)
    originRefs := AList.insert ['m'] 0 ∅ }

end Builderbot.Staged.WorkspaceClone
