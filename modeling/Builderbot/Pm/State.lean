import Builderbot.Git.Types
import Builderbot.Lib.FileTree
import Builderbot.Lib.Program
import Builderbot.Lib.Table

/-!
# The state of `pm`

The tool `crates/pm` keeps the repositories, the projects and the pool of worktrees of a workspace in
`.pm/state.json`. Each repository has slots, which are worktrees that the projects own one at a time, and a
project lists the branch of each of its repositories. This is `core/state.rs`, with the calls that the
commands make: reading and writing the state file, links and directories, and `git`.

The workspace stays where it is, so that the `root` of the state is the directory the command runs in.
-/

namespace Builderbot.Pm

open Lib.Text

open Git (Text)

structure Slot where
  index : ℕ
  path : Path
  owner : Option Text
  branch : Option Text
  lastUsed : ℤ
deriving DecidableEq, Repr

structure RepoEntry where
  url : Text
  name : Text
  /-- The bare clone, or the checkout whose worktrees `pm` manages. -/
  barePath : Path
  maxSlots : ℕ
  external : Bool
  externalPath : Option Path
deriving DecidableEq, Repr

structure Project where
  name : Text
  /-- The branch of each repository. -/
  repos : Table Text Text
  pinned : Bool
deriving DecidableEq

structure State where
  repos : Table Text RepoEntry := ∅
  projects : Table Text Project := ∅
  /-- The slots of each repository. -/
  pool : Table Text (List Slot) := ∅
deriving DecidableEq

/-! ## Names -/

/-- `trim_end_matches(".git")` of the reversed text. -/
def trimGit : Text → Text
  | 't' :: 'i' :: 'g' :: '.' :: rest => trimGit rest
  | text => text

/-- `repo_name_from_url`. What `rsplit('/')` gives first is never missing. -/
def repoNameFromUrl (url : Text) : Text :=
  ((trimGit (url.reverse.dropWhile fun c => c = '/')).takeWhile fun c => c ≠ '/').reverse

theorem slash_notMem_repoNameFromUrl (url : Text) : '/' ∉ repoNameFromUrl url := by
  rw [repoNameFromUrl, List.mem_reverse]
  intro h
  simpa using List.mem_takeWhile_imp h

example : repoNameFromUrl "git@github.com:org/myrepo.git".toList = "myrepo".toList := by decide

/-- The directory of a slot. The name of a repository has no `/`. -/
def slotPath (base : Path) (repo : Text) (index : ℕ) : Path :=
  base ++ [".pm".toList, "pool".toList, repo ++ "--".toList ++ decimal index]

/-- Where a repository is cloned to. -/
def barePath (base : Path) (repo : Text) : Path :=
  base ++ [".pm".toList, "repos".toList, repo ++ ".git".toList]

/-- A text with `--` and a number at the end has them in only one way. -/
theorem dashes_decimal_inj {r r' : Text} {i i' : ℕ}
    (h : r ++ "--".toList ++ decimal i = r' ++ "--".toList ++ decimal i') : r = r' ∧ i = i' := by
  have hsplit : ∀ (s : Text) n, rsplitOnce '-' (s ++ "--".toList ++ decimal n) = some (s ++ ['-'], decimal n) := by
    intro s n
    have hdigits : '-' ∉ decimal n := notMem_decimal (by decide)
    rw [← rsplitOnce_append hdigits (s ++ ['-'])]
    congr 1
    rw [List.append_assoc, List.append_assoc]
    rfl
  have hparts := (hsplit r i).symm.trans ((congrArg (rsplitOnce '-') h).trans (hsplit r' i'))
  rw [Option.some.injEq, Prod.mk.injEq] at hparts
  refine ⟨List.append_cancel_right hparts.1, ?_⟩
  rw [← @Nat.ofDigitChars_ten_toDigits i, ← @Nat.ofDigitChars_ten_toDigits i']
  exact congrArg (fun digits => Nat.ofDigitChars 10 digits 0) hparts.2

theorem slotPath_inj {base : Path} {r r' : Text} {i i' : ℕ} (h : slotPath base r i = slotPath base r' i') :
    r = r' ∧ i = i' := by
  have hlast := List.append_cancel_left h
  simp only [List.cons.injEq, and_true, true_and] at hlast
  exact dashes_decimal_inj hlast

/-! ## Calls -/

inductive Call where
  /-- `State::load`, and its errors. -/
  | load
  | save (state : State)
  | projectDirExists (project : Text)
  | createProjectDir (project : Text)
  | removeProjectDir (project : Text)
  /-- There is something at the place of the link. -/
  | linkExists (project repo : Text)
  | removeLink (project repo : Text)
  | symlink (target : Path) (project repo : Text)
  | pathExists (path : Path)
  | canonicalize (path : Path)
  | hasGitDir (path : Path)
  /-- The URL of the remote `origin`. -/
  | remoteUrl (path : Path)
  | tryCloneBare (url : Text) (dest : Path)
  | fetch (dir : Path)
  /-- `resolve_default_branch`. -/
  | defaultBranch (dir : Path)
  /-- `git checkout branch`. -/
  | checkout (worktree : Path) (branch : Text)
  /-- `git checkout -b branch origin/start`. -/
  | checkoutNew (worktree : Path) (branch start : Text)
  /-- `git worktree add --force worktree branch`. -/
  | worktreeAdd (bare worktree : Path) (branch : Text)
  /-- `git worktree add --force -b branch worktree origin/start`. -/
  | worktreeAddNew (bare worktree : Path) (branch start : Text)
  | now
  | stdinIsTerminal
  /-- The menu with the candidates, one line to grow the pool and one to abort. -/
  | menu (candidates : ℕ)

/-- The end of a command of `git`, if it could be run. -/
abbrev ExitStatus := Option Bool

abbrev Reply : Call → Type
  | .load => Option State
  | .removeLink _ _ | .fetch _ => Unit
  | .canonicalize _ => Option Path
  | .remoteUrl _ | .defaultBranch _ => Option Text
  | .checkout _ _ | .checkoutNew _ _ _ | .worktreeAdd _ _ _ | .worktreeAddNew _ _ _ _ => ExitStatus
  | .now => ℤ
  | .menu _ => Option ℕ
  | .save _ | .projectDirExists _ | .createProjectDir _ | .removeProjectDir _ | .linkExists _ _ | .symlink _ _ _
  | .pathExists _ | .hasGitDir _ | .tryCloneBare _ _ | .stdinIsTerminal => Bool

inductive PmError where
  | notInitialized
  | notSaved
  | projectExists (name : Text)
  | projectNotFound (name : Text)
  | dirNotCreated (name : Text)
  | dirNotRemoved (name : Text)
  | notLinked (project repo : Text)
  | cloneFailed (url : Text)
  | repoNotFound (repo : Text)
  | noExternalPath (repo : Text)
  | inaccessible (path : Path)
  | notGitRepository (path : Path)
  | alreadyPooled (repo : Text)
  | alreadyExternal (repo : Text)
  | gitNotRun
  | checkoutFailed (branch : Text)
  | worktreeFailed (branch : Text)
  | allPinned (repo : Text) (slots : ℕ)
  | notUsingSlot (target repo : Text)
  | slotsInUse (repo : Text) (slots : ℕ)
  | menuFailed
  | aborted
  /-- An index out of bounds. -/
  | panicked
deriving DecidableEq, Repr

/-- A command of `pm`, or a part of one. -/
abbrev Command := Program Call Reply PmError

/-- The reply to a call. -/
def ask (c : Call) : Command (Reply c) := .perform c

/-- A call that has to succeed. -/
def askOk (c : Call) (e : PmError) (success : Reply c → Bool) : Command Unit := do
  .require (success (← ask c)) e

/-- `State::load_or_err`. -/
def loadOrErr : Command State := do
  match (← ask .load : Option State) with
  | some state => return state
  | none => .fail .notInitialized

/-- `State::save`. -/
def State.save (state : State) : Command Unit := askOk (.save state) .notSaved id

/-! ## Changes of the state -/

namespace State

variable (state : State)

/-- The slots of a repository. -/
def slots (repo : Text) : List Slot := (state.pool.lookup repo).getD []

def setSlots (repo : Text) (slots : List Slot) : State := { state with pool := state.pool.insert repo slots }

/-- One slot changes. -/
def setSlot (repo : Text) (i : ℕ) (f : Slot → Slot) : State :=
  state.setSlots repo ((state.slots repo).modify i f)

/-- The project lists the repository with the branch. -/
def listRepo (project repo branch : Text) : State :=
  match state.projects.lookup project with
  | some p => { state with projects := state.projects.insert project { p with repos := p.repos.insert repo branch } }
  | none => state

/-- The project no longer lists the repository. -/
def unlistRepo (project repo : Text) : State :=
  match state.projects.lookup project with
  | some p => { state with projects := state.projects.insert project { p with repos := p.repos.erase repo } }
  | none => state

/-- A project without repositories. -/
def insertProject (name : Text) : State :=
  { state with projects := state.projects.insert name { name, repos := ∅, pinned := false } }

def removeProject (name : Text) : State := { state with projects := state.projects.erase name }

end State

end Builderbot.Pm
