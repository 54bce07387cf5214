import Mathlib.Data.List.Sort
import Builderbot.Pm.Pool

/-!
# The commands of `pm`

The commands of `cmd.rs` that change the state: `new`, `add` with its variants, `rm` and `status`. Each reads
the state file once, works on its copy, and writes it back. What they print is left out.
-/

namespace Builderbot.Pm

open Lib.Text

open Git (Text)

structure AddConflictOpts where
  /-- The project that has to give up its slot. -/
  evict : Option Text := none
  growPool : Bool := false
deriving DecidableEq, Repr

variable (base : Path)

/-! ## new, rm and status -/

/-- The project and its slots are gone. -/
def State.dropProject (state : State) (name : Text) : State := (state.releaseProject name).removeProject name

/-- The part of `new` that cleans up a project without a directory. -/
def dropOrphan (state : State) (name : Text) : Command State := do
  if (state.projects.lookup name).isSome then
    .require (!(← ask (.projectDirExists name) : Bool)) (.projectExists name)
    let state := state.dropProject name
    state.save
    return state
  else return state

/-- `new`. -/
def new (name : Text) : Command Unit := do
  let state ← dropOrphan (← loadOrErr) name
  askOk (.createProjectDir name) (.dirNotCreated name) id
  (state.insertProject name).save

/-- The links of a project are removed. -/
def removeLinks (project : Text) : List Text → Command Unit
  | [] => return
  | repo :: repos => do
      if (← ask (.linkExists project repo) : Bool) then ask (.removeLink project repo)
      removeLinks project repos

/-- The links and the slots of a project in the state. -/
def releaseListed (state : State) (name : Text) : Command State := do
  match state.projects.lookup name with
  | some project =>
    removeLinks name project.repos.keys
    return state.releaseProject name
  | none => return state

/-- `rm`. -/
def rm (name : Text) : Command Unit := do
  let state ← releaseListed (← loadOrErr) name
  if (← ask (.projectDirExists name) : Bool) then askOk (.removeProjectDir name) (.dirNotRemoved name) id
  (state.removeProject name).save

/-- The projects of the list that have no directory. -/
def orphans : List Text → Command (List Text)
  | [] => return []
  | name :: names => do
      let dir : Bool ← ask (.projectDirExists name)
      let rest ← orphans names
      return if dir then rest else name :: rest

/-- `status`, without the listing. -/
def status : Command Unit := do
  let state ← loadOrErr
  let orphaned ← orphans state.projects.keys
  if orphaned = [] then return
  else (orphaned.foldl State.dropProject state).save

/-! ## add -/

/-- What `resolve_repo` finds: the name of the repository, its URL, and whether it has to be cloned. -/
structure ResolvedRepo where
  name : Text
  url : Text
  needsClone : Bool
deriving DecidableEq, Repr

/-- `resolve_repo`. -/
def resolveRepo (state : State) (input : Text) : ResolvedRepo :=
  match state.repos.lookup input with
  | some entry => ⟨entry.name, entry.url, false⟩
  | none =>
    if "git@".toList.isPrefixOf input || "https://".toList.isPrefixOf input ||
        "http://".toList.isPrefixOf input then
      let name := repoNameFromUrl input
      ⟨name, input, (state.repos.lookup name).isNone⟩
    else if input.contains '/' && !input.contains ':' && !Lib.Text.contains "//".toList input then
      let url := "https://github.com/".toList ++ input ++ ".git".toList
      let name := repoNameFromUrl url
      ⟨name, url, (state.repos.lookup name).isNone⟩
    else ⟨input, input, false⟩

/-- `alternate_url`. -/
def alternateUrl (url : Text) : Option Text :=
  match List.dropPrefix? url "git@github.com:".toList with
  | some rest => some ("https://github.com/".toList ++ rest)
  | none =>
    match (List.dropPrefix? url "https://github.com/".toList).or
        (List.dropPrefix? url "http://github.com/".toList) with
    | some rest => some ("git@github.com:".toList ++ rest)
    | none => none

/-- `clone_bare`, which gives the URL that worked. -/
def cloneBare (url : Text) (dest : Path) : Command Text := do
  if (← ask (.tryCloneBare url dest) : Bool) then return url
  else
    match alternateUrl url with
    | some alt => do
        .require (← ask (.tryCloneBare alt dest) : Bool) (.cloneFailed url)
        return alt
    | none => .fail (.cloneFailed url)

/-- The name that the repository of an existing checkout gets. -/
def existingName (repoInput : Text) : Text :=
  if repoInput.contains '/' || repoInput.contains ':' || Lib.Text.contains "//".toList repoInput then
    repoNameFromUrl repoInput
  else repoInput

/-- The canonical path of an existing checkout. -/
def existingCheckout (extPath : Path) : Command Path := do
  match (← ask (.canonicalize extPath) : Option Path) with
  | none => .fail (.inaccessible extPath)
  | some canonical =>
    .require (← ask (.hasGitDir canonical) : Bool) (.notGitRepository canonical)
    return canonical

/-- The URL of the remote of an existing checkout, or its path. -/
def existingUrl (canonical : Path) : Command Text := do
  return (← ask (.remoteUrl canonical) : Option Text).getD
    ("local:".toList ++ canonical.flatMap fun name => '/' :: name)

/-- The branch for a project. -/
def branchFor (user project : Text) (branchOverride : Option Text) : Text :=
  branchOverride.getD (user ++ '/' :: project)

/-- The link in the directory of the project is made anew, and the state is saved. -/
def linkAndSave (state : State) (project repo : Text) (target : Path) : Command Unit := do
  askOk (.createProjectDir project) (.dirNotCreated project) id
  if (← ask (.linkExists project repo) : Bool) then ask (.removeLink project repo)
  askOk (.symlink target project repo) (.notLinked project repo) id
  state.save

/-- `interactive_eviction_menu`. -/
def interactiveEvictionMenu (state : State) (repo : Text) (candidates : List EvictionCandidate)
    (project branch : Text) : Command (State × ℕ) := do
  -- the least recently used first
  let candidates := candidates.insertionSort fun c d => c.lastUsed ≤ d.lastUsed
  match (← ask (.menu candidates.length) : Option ℕ) with
  | none => .fail .menuFailed
  | some selection =>
    match candidates[selection]? with
    | some candidate => executeEviction state repo candidate.slotIndex project branch
    | none =>
      if selection = candidates.length then growAndAcquire base state repo project branch
      else .fail .aborted

/-- `resolve_eviction`. -/
def resolveEviction (state : State) (repo : Text) (candidates : List EvictionCandidate) (currentMaxSlots : ℕ)
    (project branch : Text) (opts : AddConflictOpts) : Command (State × ℕ) := do
  if opts.growPool then growAndAcquire base state repo project branch
  else
    match opts.evict with
    | some target =>
      match candidates.find? fun c => c.owner = target with
      | some candidate => executeEviction state repo candidate.slotIndex project branch
      | none => .fail (.notUsingSlot target repo)
    | none =>
      if (← ask .stdinIsTerminal : Bool) then interactiveEvictionMenu base state repo candidates project branch
      else .fail (.slotsInUse repo currentMaxSlots)

/-- The slot for a project, with the resolution of a conflict. -/
def slotFor (state : State) (repo project branch : Text) (opts : AddConflictOpts) : Command (State × ℕ) := do
  match ← acquireSlot base state repo project branch with
  | (state, .acquired index) => return (state, index)
  | (state, .needsEviction candidates currentMaxSlots) =>
    resolveEviction base state repo candidates currentMaxSlots project branch opts

/-- The end of `add` and of `add_existing_worktree`. -/
def addToPool (state : State) (project repo branch : Text) (opts : AddConflictOpts) : Command Unit := do
  let (state, index) ← slotFor base (state.listRepo project repo branch) repo project branch opts
  match (state.slots repo)[index]? with
  | some slot => linkAndSave state project repo slot.path
  | none => .fail .panicked

def externalBranch : Text := "(external)".toList

/-- The repository is in the state as one that `pm` does not manage. -/
def registerExternal (state : State) (repo url : Text) (canonical : Path) : Command State := do
  match state.repos.lookup repo with
  | none => return { state with repos := state.repos.insert repo ⟨url, repo, [], 1, true, some canonical⟩ }
  | some entry =>
    .require entry.external (.alreadyPooled repo)
    return state

/-- `add_existing`. -/
def addExisting (state : State) (project repoInput : Text) (extPath : Path) : Command Unit := do
  let canonical ← existingCheckout extPath
  let repo := existingName repoInput
  let state ← registerExternal state repo (← existingUrl canonical) canonical
  linkAndSave (state.listRepo project repo externalBranch) project repo canonical

/-- The repository is in the state, with the checkout in the place of a bare clone. -/
def registerCheckout (state : State) (repo url : Text) (canonical : Path) : Command State := do
  match state.repos.lookup repo with
  | none =>
    let state := { state with
      repos := state.repos.insert repo ⟨url, repo, canonical, defaultMaxSlots, false, some canonical⟩ }
    state.save
    return state
  | some entry =>
    .require (!entry.external) (.alreadyExternal repo)
    return state

/-- `add_existing_worktree`. -/
def addExistingWorktree (state : State) (user project repoInput : Text) (branchOverride : Option Text)
    (extPath : Path) (opts : AddConflictOpts) : Command Unit := do
  let canonical ← existingCheckout extPath
  let repo := existingName repoInput
  let state ← registerCheckout state repo (← existingUrl canonical) canonical
  addToPool base state project repo (branchFor user project branchOverride) opts

/-- The project is in the state, if need be because its directory exists. -/
def ensureProject (state : State) (project : Text) : Command State := do
  if (state.projects.lookup project).isSome then return state
  else
    .require (← ask (.projectDirExists project) : Bool) (.projectNotFound project)
    let state := state.insertProject project
    state.save
    return state

/-- The repository is in the state, if need be because it was cloned. -/
def ensureCloned (state : State) (repoInput : Text) (resolved : ResolvedRepo) : Command State := do
  if resolved.needsClone then
    let dest := barePath base resolved.name
    let url ← cloneBare resolved.url dest
    let state := { state with
      repos := state.repos.insert resolved.name ⟨url, resolved.name, dest, defaultMaxSlots, false, none⟩ }
    state.save
    return state
  else
    .require (state.repos.lookup resolved.name).isSome (.repoNotFound repoInput)
    return state

/-- The rest of `add`, for a repository that is not external. -/
def addPooled (state : State) (user project repoInput : Text) (branchOverride : Option Text)
    (opts : AddConflictOpts) (resolved : ResolvedRepo) : Command Unit := do
  let state ← ensureCloned base state repoInput resolved
  addToPool base state project resolved.name (branchFor user project branchOverride) opts

structure AddArgs where
  user : Text
  project : Text
  repoInput : Text
  branchOverride : Option Text := none
  existing : Option Path := none
  worktree : Bool := false
  opts : AddConflictOpts := {}

/-- `add`. -/
def add (args : AddArgs) : Command Unit := do
  let state ← ensureProject (← loadOrErr) args.project
  match args.existing with
  | some extPath =>
    if args.worktree then
      addExistingWorktree base state args.user args.project args.repoInput args.branchOverride extPath args.opts
    else addExisting state args.project args.repoInput extPath
  | none =>
    let resolved := resolveRepo state args.repoInput
    match state.repos.lookup resolved.name with
    | some entry =>
      if entry.external then
        match entry.externalPath with
        | some extPath => addExisting state args.project resolved.name extPath
        | none => .fail (.noExternalPath resolved.name)
      else addPooled base state args.user args.project args.repoInput args.branchOverride args.opts resolved
    | none => addPooled base state args.user args.project args.repoInput args.branchOverride args.opts resolved

/-- The commands that change the state. -/
inductive PmCommand where
  | new (name : Text)
  | add (args : AddArgs)
  | rm (name : Text)
  | status

def PmCommand.program : PmCommand → Command Unit
  | .new name => Pm.new name
  | .add args => Pm.add base args
  | .rm name => Pm.rm name
  | .status => Pm.status

end Builderbot.Pm
