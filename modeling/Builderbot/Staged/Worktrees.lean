import Builderbot.Git.Types
import Builderbot.Lib.Pool
import Builderbot.Lib.Table

/-!
# Worktrees of branches

`create_and_link_worktree` of `apps/staged/src-tauri/src/branches.rs` with the functions it calls there and in
`git/worktree.rs`, as programs over the store and over one clone. Each call to git or to the store may fail. The lock of
a branch is that of the pool the programs run in; `worktree_setup_lock_for` hands it out as `clone_lock_for_repo` does
for clones.

The callers have computed the desired path from the root of the project, so the root is known.
-/

namespace Builderbot.Staged.Worktrees

open Builderbot.Lib.Text Builderbot.Git Program

/-- The components of an absolute path. -/
abbrev Path := List Text

/-- A row of `branches`, or an old copy of one. -/
structure Branch where
  id : Text
  projectId : Text
  projectRepoId : Option Text
  branchName : Text
  baseBranch : Text
  prNumber : Option ℕ
deriving DecidableEq, Repr

structure Workdir where
  id : ℕ
  projectId : Text
  path : Path
  branchId : Option Text
deriving DecidableEq, Repr

/-- The store, and one clone with what exists on the disk. -/
structure World where
  branches : Table Text Branch := ∅
  /-- `branch_name` in `project_repos`, by project and repo. -/
  repoBranchNames : Table (Text × Text) Text := ∅
  workdirs : List Workdir := []
  nextWorkdir : ℕ := 0
  localBranches : List Text := []
  /-- The worktrees with the branch that is checked out, in the order in which git lists them. -/
  worktrees : Table Path (Option Text) := ∅
  /-- Other paths that exist. -/
  paths : List Path := []
deriving DecidableEq

/-! ## Calls -/

inductive Call where
  | getWorkdirForBranch (branchId : Text)
  /-- `git worktree list`, to look for a branch. -/
  | listWorktrees (branchName : Text)
  | branchExists (branchName : Text)
  | fetchPrHeadSha (prNumber : ℕ)
  | remoteBranchExists (branchName : Text)
  | createParent (path : Path)
  | pathExists (path : Path)
  /-- `git worktree add`, with `-b` for a new branch from the start point. -/
  | worktreeAdd (path : Path) (branchName : Text) (newFrom : Option Text)
  | setUpstreamToOrigin (branchName remoteBranch : Text)
  | updateBranchName (branchId branchName : Text)
  | updateProjectRepoBranchName (projectId repoId branchName : Text)
  | listWorkdirsForProject (projectId : Text)
  | assignWorkdir (workdir : ℕ) (branchId : Text)
  | createWorkdir (projectId : Text) (path : Path) (branchId : Text)
deriving DecidableEq, Repr

abbrev Reply : Call → Type
  | .getWorkdirForBranch _ => Except Text (Option Workdir)
  | .listWorktrees _ => Except Text (List (Path × Option Text))
  | .branchExists _ | .remoteBranchExists _ | .pathExists _ => Bool
  | .fetchPrHeadSha _ => Except Text Text
  | .setUpstreamToOrigin _ _ => Unit
  | .listWorkdirsForProject _ => Except Text (List Workdir)
  | .createParent _ | .worktreeAdd _ _ _ | .updateBranchName _ _ | .updateProjectRepoBranchName _ _ _
  | .assignWorkdir _ _ | .createWorkdir _ _ _ => Except Text Unit

/-- What a `git worktree add` has done before it fails. -/
inductive AddEffect where
  | nothing
  | branch
  | worktree
deriving DecidableEq, Repr

/-- What comes from outside at a call. -/
structure Outcome where
  /-- The error of a call that fails. -/
  failure : Option Text := none
  /-- The message of a call that cannot succeed. -/
  message : Text := []
  effect : AddEffect := .nothing
  /-- The commit of a PR. -/
  sha : Text := []
  /-- The branch exists on the remote. -/
  onRemote : Bool := false
deriving DecidableEq, Repr

namespace World

variable (w : World)

/-- `UPDATE branches SET branch_name`. -/
def setBranchName (branchId branchName : Text) : World :=
  match w.branches.lookup branchId with
  | some branch => { w with branches := w.branches.insert branchId { branch with branchName } }
  | none => w

/-- Another branch of the same project and repo has the name. -/
def nameTaken (branchId branchName : Text) : Bool :=
  match w.branches.lookup branchId with
  | some branch => branch.projectRepoId.isSome ∧ w.branches.entries.any fun e =>
    e.1 ≠ branchId ∧ e.2.projectId = branch.projectId ∧ e.2.projectRepoId = branch.projectRepoId ∧
      e.2.branchName = branchName
  | none => false

def assign (workdir : ℕ) (branchId : Text) : World :=
  { w with workdirs := w.workdirs.map fun wd => if wd.id = workdir then { wd with branchId := some branchId } else wd }

def addWorkdir (projectId : Text) (path : Path) (branchId : Text) : World :=
  { w with
    workdirs := w.workdirs ++ [⟨w.nextWorkdir, projectId, path, some branchId⟩]
    nextWorkdir := w.nextWorkdir + 1 }

/-- Some worktree has the branch checked out. -/
def checkedOut (branchName : Text) : Bool := w.worktrees.entries.any fun e => e.2 = some branchName

/-- `git worktree add` can be done: no worktree is there, the branch is checked out nowhere, and it is new or not. -/
def canAdd (path : Path) (branchName : Text) (newFrom : Option Text) : Bool :=
  (w.worktrees.lookup path).isNone ∧ ¬ w.checkedOut branchName ∧ (newFrom.isSome ↔ branchName ∉ w.localBranches)

def addBranch (branchName : Text) : World := { w with localBranches := branchName :: w.localBranches }

def addWorktree (path : Path) (branchName : Text) : World :=
  { w with
    localBranches := branchName :: w.localBranches
    worktrees := w.worktrees.insert path (some branchName) }

/-- What an unsuccessful `git worktree add` leaves. -/
def afterFailedAdd (path : Path) (branchName : Text) : AddEffect → World
  | .nothing => w
  | .branch => w.addBranch branchName
  | .worktree => w.addWorktree path branchName

end World

def handle (w : World) : (c : Call) → Outcome → Reply c × World
  | .getWorkdirForBranch branchId, f =>
    match f.failure with
    | some e => (.error e, w)
    | none => (.ok (w.workdirs.find? (·.branchId = some branchId)), w)
  | .listWorktrees _, f =>
    match f.failure with
    | some e => (.error e, w)
    | none => (.ok (w.worktrees.entries.map fun e => (e.1, e.2)), w)
  | .branchExists branchName, f => (f.failure.isNone && decide (branchName ∈ w.localBranches), w)
  | .fetchPrHeadSha _, f =>
    match f.failure with
    | some e => (.error e, w)
    | none => (.ok f.sha, w)
  | .remoteBranchExists _, f => (f.failure.isNone && f.onRemote, w)
  | .createParent _, f =>
    match f.failure with
    | some e => (.error e, w)
    | none => (.ok (), w)
  | .pathExists path, _ => (decide (path ∈ w.paths) || (w.worktrees.lookup path).isSome, w)
  | .worktreeAdd path branchName newFrom, f =>
    if w.canAdd path branchName newFrom then
      match f.failure with
      | some e => (.error e, w.afterFailedAdd path branchName f.effect)
      | none => (.ok (), w.addWorktree path branchName)
    else (.error (f.failure.getD f.message), w)
  | .setUpstreamToOrigin _ _, _ => ((), w)
  | .updateBranchName branchId branchName, f =>
    match f.failure with
    | some e => (.error e, w)
    | none =>
      if w.nameTaken branchId branchName then (.error f.message, w) else (.ok (), w.setBranchName branchId branchName)
  | .updateProjectRepoBranchName projectId repoId branchName, f =>
    match f.failure with
    | some e => (.error e, w)
    | none =>
      (.ok (),
        if (w.repoBranchNames.lookup (projectId, repoId)).isSome then
          { w with repoBranchNames := w.repoBranchNames.insert (projectId, repoId) branchName }
        else w)
  | .listWorkdirsForProject projectId, f =>
    match f.failure with
    | some e => (.error e, w)
    | none => (.ok (w.workdirs.filter (·.projectId = projectId)), w)
  | .assignWorkdir workdir branchId, f =>
    match f.failure with
    | some e => (.error e, w)
    | none => if (w.branches.lookup branchId).isNone then (.error f.message, w) else (.ok (), w.assign workdir branchId)
  | .createWorkdir projectId path branchId, f =>
    match f.failure with
    | some e => (.error e, w)
    | none =>
      -- the path is unique in the project, and the branch is a foreign key
      if (w.branches.lookup branchId).isNone ∨ w.workdirs.any (fun wd => wd.projectId = projectId ∧ wd.path = path) then
        (.error f.message, w)
      else (.ok (), w.addWorkdir projectId path branchId)

/-! ## The programs -/

abbrev WorktreeM (α : Type) := Program Call Reply Text α

def ask (c : Call) : WorktreeM (Reply c) := perform c

/-- `?`. -/
def orFail {α : Type} : Except Text α → WorktreeM α
  | .ok a => .pure a
  | .error e => .fail e

/-- `Display` of `GitError::CommandFailed`. -/
def commandFailed (message : Text) : Text := "git command failed: ".toList ++ message

def displayPath (path : Path) : Text := path.flatMap fun component => '/' :: component

def sanitizePathSegment (raw fallback : Text) : Text :=
  let replaced := raw.map fun c => if c.isAlphanum ∨ c = '-' ∨ c = '_' ∨ c = '.' then c else '-'
  let safe := ['-'].intercalate ((replaced.splitOn '-').filter (· ≠ []))
  if safe.isEmpty then fallback else safe

/-- `project_worktree_root_for`, under the directory for worktrees. -/
def projectWorktreeRootFor (worktreesDir : Path) (projectId : Text) : Path :=
  worktreesDir ++ ["projects".toList, sanitizePathSegment projectId "project".toList]

inductive ExistingWorktree where
  | found (path : Path)
  | none
  /-- The branch is checked out outside the project's directory. -/
  | stale
deriving DecidableEq, Repr

/-- The loop of `find_existing_worktree_for_branch`. -/
def existingWorktree (branchName : Text) (projectRoot : Option Path) : List (Path × Option Text) → ExistingWorktree
  | [] => .none
  | (path, wtBranch) :: worktrees =>
    if wtBranch ≠ some branchName then existingWorktree branchName projectRoot worktrees
    else
      match projectRoot with
      | none => .found path
      | some root => if root <+: path then .found path else .stale

def findExistingWorktreeForBranch (branchName : Text) (projectRoot : Option Path) : WorktreeM (Except Text ExistingWorktree) := do
  match (← ask (.listWorktrees branchName) : Except Text (List (Path × Option Text))) with
  | .error e => return .error e
  | .ok worktrees => return .ok (existingWorktree branchName projectRoot worktrees)

/-- The rest of the loop of `fallback_worktree_path_for`. -/
def fallbackFrom (parent : Path) (fileName : Text) : List ℕ → WorktreeM (Option Path)
  | [] => return none
  | suffix :: rest => do
      let candidate := parent ++ [fileName ++ "-".toList ++ decimal suffix]
      if (← ask (.pathExists candidate) : Bool) then fallbackFrom parent fileName rest else return some candidate

def fallbackWorktreePathFor (desiredPath : Path) : WorktreeM (Option Path) := do
  if (← ask (.pathExists desiredPath) : Bool) then
    match desiredPath.getLast? with
    | some fileName => fallbackFrom desiredPath.dropLast fileName (List.range' 2 49)
    | none => return none
  else return some desiredPath

/-- The loop of `unique_branch_name`. -/
def uniqueFrom (baseName : Text) : List ℕ → WorktreeM Text
  | [] => .fail ("Could not find a unique branch name for '".toList ++ baseName ++ "' (tried ".toList ++ baseName ++
      "-2 through ".toList ++ baseName ++
      "-50). Delete unused worktrees or branches with `git branch -d` to free up names.".toList)
  | suffix :: rest => do
      let candidate := baseName ++ "-".toList ++ decimal suffix
      if (← ask (.branchExists candidate) : Bool) then uniqueFrom baseName rest else return candidate

def uniqueBranchName (baseName : Text) : WorktreeM Text := uniqueFrom baseName (List.range' 2 49)

/-- A commit id, or a name under `origin/`. -/
def remoteStart (startPoint : Text) : Text :=
  let isSha := startPoint.length = 40 ∧ startPoint.all fun c => c.isDigit ∨ 'a' ≤ c ∧ c ≤ 'f' ∨ 'A' ≤ c ∧ c ≤ 'F'
  if isSha ∨ "origin/".toList <+: startPoint then startPoint else "origin/".toList ++ startPoint

/-- `create_worktree_at_path` and `create_worktree_for_existing_branch_at_path`. -/
def addAtPath (branchName : Text) (newFrom : Option Text) (path : Path) : WorktreeM (Except Text Path) := do
  match (← ask (.createParent path) : Except Text Unit) with
  | .error e => return .error (commandFailed ("Failed to create worktree directory: ".toList ++ e))
  | .ok () =>
    if (← ask (.pathExists path) : Bool) then
      return .error (commandFailed ("Worktree already exists at ".toList ++ displayPath path))
    else
      match (← ask (.worktreeAdd path branchName newFrom) : Except Text Unit) with
      | .error e => return .error (commandFailed e)
      | .ok () => return .ok path

def isWorktreePathExistsError (err : Text) : Bool := contains "Worktree already exists at ".toList err

/-- `create_worktree_with_fallback`, and with no start point `create_worktree_for_existing_branch_with_fallback`. -/
def withFallback (branchName : Text) (newFrom : Option Text) (desiredPath : Path) (projectRoot : Option Path) :
    WorktreeM (Except Text Path) := do
  match ← addAtPath branchName newFrom desiredPath with
  | .ok path => return .ok path
  | .error err =>
    match ← findExistingWorktreeForBranch branchName projectRoot with
    | .error e => return .error e
    | .ok (.found path) => return .ok path
    | .ok _ =>
      if isWorktreePathExistsError err then
        match ← fallbackWorktreePathFor desiredPath with
        | none => return .error err
        | some fallbackPath =>
          if fallbackPath = desiredPath then return .error err else addAtPath branchName newFrom fallbackPath
      else return .error err

def createWorktreeForExistingBranchWithFallback (branchName : Text) (desiredPath : Path) (projectRoot : Option Path) :
    WorktreeM (Except Text Path) :=
  withFallback branchName none desiredPath projectRoot

def createWorktreeWithFallback (branchName baseBranch : Text) (desiredPath : Path) (projectRoot : Option Path) :
    WorktreeM (Except Text Path) :=
  withFallback branchName (some (remoteStart baseBranch)) desiredPath projectRoot

/-- The name of the local branch. -/
def chooseName (branch : Branch) (existing : ExistingWorktree) : WorktreeM Text :=
  match existing with
  | .stale => uniqueBranchName branch.branchName
  | _ => return branch.branchName

/-- `start_point`. -/
def startPoint (branch : Branch) : WorktreeM Text := do
  match branch.prNumber with
  | some prNumber =>
    orFail (← ask (.fetchPrHeadSha prNumber) : Except Text Text)
  | none =>
    if (← ask (.remoteBranchExists branch.branchName) : Bool) then return "origin/".toList ++ branch.branchName else return branch.baseBranch

/-- A worktree with a new branch; the branch may appear meanwhile. -/
def createNew (branch : Branch) (localName : Text) (desiredPath : Path) (projectRoot : Option Path) : WorktreeM Path := do
  let start ← startPoint branch
  match ← createWorktreeWithFallback localName start desiredPath projectRoot with
  | .ok path => return path
  | .error createErr =>
    match ← orFail (← findExistingWorktreeForBranch localName projectRoot) with
    | .found path => return path
    | _ =>
      if (← ask (.branchExists localName) : Bool) then
        orFail (← createWorktreeForExistingBranchWithFallback localName desiredPath projectRoot)
      else .fail createErr

/-- `worktree_path`. -/
def chooseWorktree (branch : Branch) (localName : Text) (existing : ExistingWorktree) (desiredPath : Path)
    (projectRoot : Option Path) : WorktreeM Path := do
  match existing with
  | .found path => return path
  | _ =>
    if localName = branch.branchName then
      if (← ask (.branchExists localName) : Bool) then
        orFail (← createWorktreeForExistingBranchWithFallback localName desiredPath projectRoot)
      else createNew branch localName desiredPath projectRoot
    else createNew branch localName desiredPath projectRoot

/-- The upstream of a PR branch; the result is ignored. -/
def trackPr (branch : Branch) (localName : Text) : WorktreeM Unit := do
  if branch.prNumber.isSome then
    ask (.setUpstreamToOrigin localName branch.branchName)
  else return ()

/-- Another name than that of the record is stored in both tables. -/
def persistName (branch : Branch) (localName : Text) : WorktreeM Unit := do
  if localName = branch.branchName then return ()
  else
    orFail (← ask (.updateBranchName branch.id localName) : Except Text Unit)
    match branch.projectRepoId with
    | some repoId => orFail (← ask (.updateProjectRepoBranchName branch.projectId repoId localName) : Except Text Unit)
    | none => return ()

/-- Link the path to the branch. -/
def linkWorkdir (branch : Branch) (path : Path) : WorktreeM Unit := do
  let workdirs ← orFail (← ask (.listWorkdirsForProject branch.projectId) : Except Text (List Workdir))
  match workdirs.find? (·.path = path) with
  | some wd =>
    match wd.branchId with
    | some existingBranchId =>
      if existingBranchId = branch.id then return ()
      else .fail ("Worktree '".toList ++ displayPath wd.path ++ "' is already assigned to another branch".toList)
    | none => orFail (← ask (.assignWorkdir wd.id branch.id) : Except Text Unit)
  | none => orFail (← ask (.createWorkdir branch.projectId path branch.id) : Except Text Unit)

/-- What follows where the branch has no workdir. -/
def setUp (branch : Branch) (desiredPath : Path) (projectRoot : Option Path) : WorktreeM Path := do
  let existing ← orFail (← findExistingWorktreeForBranch branch.branchName projectRoot)
  let localName ← chooseName branch existing
  let path ← chooseWorktree branch localName existing desiredPath projectRoot
  trackPr branch localName
  persistName branch localName
  linkWorkdir branch path
  return path

def createAndLinkWorktree (worktreesDir : Path) (branch : Branch) (desiredPath : Path) : WorktreeM Path := do
  match ← orFail (← ask (.getWorkdirForBranch branch.id) : Except Text (Option Workdir)) with
  | some existing => return existing.path
  | none => setUp branch desiredPath (some (projectWorktreeRootFor worktreesDir branch.projectId))

/-! ## The system -/

/-- A call, with the copy of the row it is given and the last component of the desired path. -/
structure Job where
  branch : Branch
  name : Text
deriving DecidableEq, Repr

/-- The root of the branch's project. -/
abbrev Job.root (worktreesDir : Path) (job : Job) : Path := projectWorktreeRootFor worktreesDir job.branch.projectId

def Job.program (worktreesDir : Path) (job : Job) : WorktreeM Path :=
  createAndLinkWorktree worktreesDir job.branch (job.root worktreesDir ++ [job.name])

/-- The copy is one of a row, whose project does not change. -/
def Job.admits (job : Job) (w : World) : Bool :=
  (w.branches.lookup job.branch.id).any fun row => row.projectId = job.branch.projectId

abbrev WorktreeSystem := Pool.System Call Reply Text Path World Job

abbrev WorktreeEvent := Pool.Event Outcome Job

/-- The threads of one clone. A thread runs under the lock of its branch. -/
def step (worktreesDir : Path) : WorktreeSystem → WorktreeEvent → Option WorktreeSystem :=
  Pool.step handle (Job.program worktreesDir) (fun job => job.branch.id) Job.admits

end Builderbot.Staged.Worktrees
