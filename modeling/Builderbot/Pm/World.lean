import Builderbot.Pm.OwnershipRuns

/-!
# The workspace on disk

The disk that the commands of `pm` work on: the directories and links of the projects, the worktrees with what
is checked out in them, and the repositories of `git`. A branch is checked out in at most one worktree as far
as `git checkout` is concerned, which fails for a branch that another worktree holds; `git worktree add
--force` does not care. Checking out a branch keeps the uncommitted changes.

The directory and the links of a project are at the place that its name leads to. Two names can lead to one
place, such as `a` and `a/`.

Every call can fail, and what the disk does not decide, such as the clock or the menu, comes with its outcome.
-/

namespace Builderbot.Pm

open Program

open Git (Text)

/-- A repository of `git`. -/
structure GitRepo where
  branches : List Text := []
  /-- The branches of the remote, as they were fetched. -/
  remote : List Text
  /-- The branch that `refs/remotes/origin/HEAD` stands for, if it is there. A bare clone does not have it. -/
  originHead : Option Text := none
  /-- The branch in the checkout itself, if it is not a bare one. -/
  mainHead : Option Text := none

instance : Inhabited GitRepo := ⟨{ remote := [mainBranch] }⟩

def masterBranch : Text := "master".toList

/-- `resolve_default_branch`. In the end it is `main`, also if the remote does not have it. -/
def GitRepo.resolveDefaultBranch (repo : GitRepo) : Text :=
  match repo.originHead with
  | some branch => branch
  | none =>
    if repo.remote.contains mainBranch then mainBranch
    else if repo.remote.contains masterBranch then masterBranch
    else mainBranch

/-- A change that is not committed, with the project through whose link it was made. -/
structure Edit where
  author : Text
  change : ℕ
deriving DecidableEq, Repr

structure WorktreeDir where
  repo : Path
  head : Text
  edits : List Edit
deriving DecidableEq, Repr

/-- What is at the place of a link. -/
inductive LinkEntry where
  | nothing
  | link (target : Path)
  | directory
deriving DecidableEq, Repr

structure World where
  file : StateFile := .missing
  /-- The directory that `base.join(project)` leads to, in the file system as it is. -/
  place : Text → Path := fun project => (project.splitOn '/').filter fun name => name ≠ [] ∧ name ≠ ['.']
  dirs : Path → Bool := fun _ => false
  /-- What each directory has under the name of a repository. -/
  links : Path → Text → LinkEntry := fun _ _ => .nothing
  worktrees : Table Path WorktreeDir := ∅
  git : Path → GitRepo := fun _ => default
  /-- The checkouts that the user has. -/
  checkouts : List Path := []

/-- What comes from outside with a call. -/
structure Outcome where
  /-- The call fails, or the command cannot be run. -/
  fails : Bool := false
  /-- A command of `git` fails for a reason of its own, such as a conflict with uncommitted changes. -/
  refused : Bool := false
  /-- The write that fails leaves the file in pieces. -/
  torn : Bool := false
  now : ℤ := 0
  terminal : Bool := false
  selection : Option ℕ := none
  url : Option Text := none
  cloned : GitRepo := default

namespace World

variable (w : World)

/-! ## Git -/

/-- A worktree of the repository, apart from one, holds the branch. -/
def heldElsewhere (repo except : Path) (branch : Text) : Bool :=
  (w.git repo).mainHead = some branch ||
    w.worktrees.entries.any fun e => e.1 ≠ except && e.2.repo = repo && e.2.head = branch

/-- The branch is in the repository. -/
def hasBranch (repo : Path) (branch : Text) : Bool :=
  (w.git repo).branches.contains branch || (w.git repo).mainHead = some branch ||
    w.worktrees.entries.any fun e => e.2.repo = repo && e.2.head = branch

def addBranch (repo : Path) (branch : Text) : World :=
  let branches := branch :: (w.git repo).branches
  { w with git := Function.update w.git repo { w.git repo with branches } }

/-- The uncommitted changes in a worktree. -/
def editsAt (path : Path) : List Edit := ((w.worktrees.lookup path).map WorktreeDir.edits).getD []

def withFile (file : StateFile) : World := { w with file }

/-- The state in the file. A file that cannot be read has nothing in it. -/
def stored : State := w.file.load.getD {}

/-- The branch that a worktree has. -/
def headAt (path : Path) : Option Text := (w.worktrees.lookup path).map WorktreeDir.head

/-- The worktree has the branch, and keeps its changes. -/
def switch (path : Path) (worktree : WorktreeDir) (branch : Text) : World :=
  { w with worktrees := w.worktrees.insert path { worktree with head := branch } }

/-- `git checkout branch`, which makes the branch if only the remote has it. -/
def checkout (path : Path) (branch : Text) : Option World :=
  (w.worktrees.lookup path).bind fun wt =>
    if w.heldElsewhere wt.repo path branch then none
    else if w.hasBranch wt.repo branch then some (w.switch path wt branch)
    else if (w.git wt.repo).remote.contains branch then some ((w.addBranch wt.repo branch).switch path wt branch)
    else none

/-- `git checkout -b branch origin/start`. -/
def checkoutNew (path : Path) (branch start : Text) : Option World :=
  (w.worktrees.lookup path).bind fun wt =>
    if w.hasBranch wt.repo branch then none
    else if (w.git wt.repo).remote.contains start then some ((w.addBranch wt.repo branch).switch path wt branch)
    else none

/-- The repository that a directory belongs to. -/
def repoOf (dir : Path) : Path := ((w.worktrees.lookup dir).map WorktreeDir.repo).getD dir

/-- `git worktree add --force path branch`. -/
def worktreeAdd (bare path : Path) (branch : Text) : Option World :=
  let repo := w.repoOf bare
  if (w.worktrees.lookup path).isSome then none
  else if w.hasBranch repo branch || (w.git repo).remote.contains branch then
    some ((w.addBranch repo branch).switch path ⟨repo, branch, []⟩ branch)
  else none

/-- `git worktree add --force -b branch path origin/start`. -/
def worktreeAddNew (bare path : Path) (branch start : Text) : Option World :=
  let repo := w.repoOf bare
  if (w.worktrees.lookup path).isSome || w.hasBranch repo branch then none
  else if (w.git repo).remote.contains start then
    some ((w.addBranch repo branch).switch path ⟨repo, branch, []⟩ branch)
  else none

/-- A command of `git`, with what it does if it succeeds. -/
def gitCommand (outcome : Outcome) (result : Option World) : ExitStatus × World :=
  if outcome.fails then (none, w)
  else if outcome.refused then (some false, w)
  else match result with
    | some w' => (some true, w')
    | none => (some false, w)

/-! ## Calls -/

def setLink (dir : Path) (repo : Text) (entry : LinkEntry) : World :=
  { w with links := Function.update w.links dir (Function.update (w.links dir) repo entry) }

theorem links_setLink (dir : Path) (repo : Text) (entry : LinkEntry) (dir' : Path) (repo' : Text) :
    (w.setLink dir repo entry).links dir' repo' = if dir' = dir ∧ repo' = repo then entry else w.links dir' repo' := by
  show Function.update w.links dir _ dir' repo' = _
  by_cases hdir : dir' = dir
  · subst hdir
    rw [Function.update_self]
    by_cases hrepo : repo' = repo
    · subst hrepo
      rw [Function.update_self, if_pos ⟨rfl, rfl⟩]
    · rw [Function.update_of_ne hrepo, if_neg fun h => hrepo h.2]
  · rw [Function.update_of_ne hdir, if_neg fun h => hdir h.1]

/-- `create_dir_all`. -/
def createDir (dir : Path) : World := { w with dirs := fun path => path.isPrefixOf dir || w.dirs path }

/-- `remove_dir_all`: what is below the directory is gone, too. -/
def clearDir (dir : Path) : World :=
  { w with
    dirs := fun path => !dir.isPrefixOf path && w.dirs path
    links := fun path repo => if dir.isPrefixOf path then .nothing else w.links path repo }

/-- The reply to a call, and the disk after it. -/
def handle (w : World) : (c : Call) → Outcome → Reply c × World
  | .load, o => (if o.fails then none else w.file.load, w)
  | .save state, o =>
    if o.fails then (false, if o.torn then { w with file := .broken } else w)
    else (true, { w with file := .state state })
  | .projectDirExists project, _ => (w.dirs (w.place project), w)
  | .createProjectDir project, o => if o.fails then (false, w) else (true, w.createDir (w.place project))
  | .removeProjectDir project, o => if o.fails then (false, w) else (true, w.clearDir (w.place project))
  | .linkExists project repo, _ => (w.links (w.place project) repo ≠ .nothing, w)
  | .removeLink project repo, o =>
    if o.fails || w.links (w.place project) repo = .directory then ((), w)
    else ((), w.setLink (w.place project) repo .nothing)
  | .symlink target project repo, o =>
    if o.fails || !w.dirs (w.place project) || w.links (w.place project) repo ≠ .nothing then (false, w)
    else (true, w.setLink (w.place project) repo (.link target))
  | .pathExists path, _ => ((w.worktrees.lookup path).isSome, w)
  | .canonicalize path, o => (if o.fails then none else some path, w)
  | .hasGitDir path, _ => (w.checkouts.contains path || (w.worktrees.lookup path).isSome, w)
  | .remoteUrl _, o => (o.url, w)
  | .tryCloneBare _ dest, o =>
    if o.fails then (false, w) else (true, { w with git := Function.update w.git dest o.cloned })
  | .fetch _, _ => ((), w)
  | .defaultBranch dir, o => (if o.fails then none else some (w.git (w.repoOf dir)).resolveDefaultBranch, w)
  | .checkout path branch, o => w.gitCommand o (w.checkout path branch)
  | .checkoutNew path branch start, o => w.gitCommand o (w.checkoutNew path branch start)
  | .worktreeAdd bare path branch, o => w.gitCommand o (w.worktreeAdd bare path branch)
  | .worktreeAddNew bare path branch start, o => w.gitCommand o (w.worktreeAddNew bare path branch start)
  | .now, o => (o.now, w)
  | .stdinIsTerminal, o => (o.terminal, w)
  | .menu _, o => (o.selection, w)

/-! ## Runs -/

/-- `main` makes a new workspace if there is none. -/
def autoInit : World :=
  match w.file with
  | .missing => { w with file := .state {} }
  | .broken | .state _ => w

/-- The changes in the worktree that a link leads to. -/
def changeEdits (project repo : Text) (f : List Edit → List Edit) : Option World :=
  match w.links (w.place project) repo with
  | .link target =>
    (w.worktrees.lookup target).map fun wt =>
      { w with worktrees := w.worktrees.insert target { wt with edits := f wt.edits } }
  | .nothing | .directory => none

end World

inductive WorldEvent where
  | command (c : PmCommand) (outcome : Call → Outcome)
  /-- A file is changed through the link of a project. -/
  | edit (project repo : Text) (change : ℕ)
  | commit (project repo : Text)
  /-- The directory of a project is removed by hand. -/
  | removeDir (project : Text)

/-- What happens in a workspace, one command at a time. -/
def World.step (base : Path) (w : World) : WorldEvent → Option World
  | .command c outcome => some (exec World.handle outcome (c.program base) w.autoInit).2
  | .edit project repo change => w.changeEdits project repo fun edits => ⟨project, change⟩ :: edits
  | .commit project repo => w.changeEdits project repo fun _ => []
  | .removeDir project => some (w.clearDir (w.place project))

/-- Two projects get a slot each for a repository that has to be cloned, and a third one has none. -/
def sharedEvents : List WorldEvent :=
  let addTo (project branch : Text) : WorldEvent := .command
    (.add { user := ['u'], project, repoInput := "https://h/r".toList, branchOverride := some branch }) fun _ => {}
  [.command (.new ['a']) fun _ => {}, addTo ['a'] ['x'], .command (.new ['b']) fun _ => {}, addTo ['b'] ['y'],
    .command (.new ['c']) fun _ => {}]

/-- A third project asks for a slot. -/
def lateArgs (opts : AddConflictOpts) : AddArgs where
  user := ['u']
  project := ['c']
  repoInput := ['r']
  branchOverride := some ['z']
  opts

/-! ## Runs keep the state file consistent -/

variable {path : Path} {branch : Text} {c : Call}

namespace World

/-- A workspace that `pm` has not worked in. -/
structure Fresh (w : World) : Prop where
  file : w.file = .missing
  worktrees : w.worktrees = ∅
  links : ∀ dir repo target, w.links dir repo ≠ .link target

/-- The state file, if it can be read, has a consistent state. -/
def Consistent (base : Path) (w : World) : Prop := ∀ state, w.file = .state state → state.Valid base

variable {base : Path} {w t : World}

/-- Consistency is about the state file only. -/
theorem consistent_of_file {t : World} (h : w.Consistent base) (hfile : t.file = w.file) : t.Consistent base :=
  fun state hstate => h state (hfile ▸ hstate)

/-- A worktree was made or switched to a branch, with its changes, and nothing else that `pm` looks at has
changed. -/
structure Switched (w t : World) (path : Path) (branch : Text) : Prop where
  file : t.file = w.file
  place : t.place = w.place
  dirs : t.dirs = w.dirs
  links : t.links = w.links
  checkouts : t.checkouts = w.checkouts
  others : ∀ p, p ≠ path → t.worktrees.lookup p = w.worktrees.lookup p
  there : ∃ repo, t.worktrees.lookup path = some ⟨repo, branch, w.editsAt path⟩

theorem stored_eq {state : State} (h : w.file = .state state) : w.stored = state := by
  rw [stored, h]
  rfl

/-- Switching a worktree with its edits kept moves nothing else. -/
theorem switched_switch {wt : WorktreeDir} (hedits : wt.edits = w.editsAt path) (branch : Text) :
    w.Switched (w.switch path wt branch) path branch where
  file := rfl
  place := rfl
  dirs := rfl
  links := rfl
  checkouts := rfl
  others _ hp := AList.lookup_insert_ne hp
  there := ⟨wt.repo, hedits ▸ AList.lookup_insert _⟩

theorem Switched.of_addBranch {repo : Path} (h : (w.addBranch repo branch).Switched t path branch) :
    w.Switched t path branch :=
  ⟨h.file, h.place, h.dirs, h.links, h.checkouts, h.others, h.there⟩

/-- Where there is a worktree, its changes are those of the path. -/
theorem editsAt_eq {wt : WorktreeDir} (h : w.worktrees.lookup path = some wt) :
    wt.edits = w.editsAt path := by
  rw [editsAt, h]
  rfl

/-- Where there is none, there are no changes. -/
theorem editsAt_of_not_isSome (h : ¬ (w.worktrees.lookup path).isSome = true) : [] = w.editsAt path := by
  rw [Bool.not_eq_true, Option.isSome_eq_false_iff, Option.isNone_iff_eq_none] at h
  rw [editsAt, h]
  rfl

/-- `git checkout` moves one worktree to the branch. -/
theorem checkout_switched (h : w.checkout path branch = some t) : w.Switched t path branch := by
  obtain ⟨wt, hwt, h⟩ := Option.bind_eq_some_iff.mp h
  split at h
  · cases h
  split at h
  · cases h
    exact switched_switch (editsAt_eq hwt) branch
  split at h
  · cases h
    exact (switched_switch (w := w.addBranch wt.repo branch) (editsAt_eq hwt) branch).of_addBranch
  · cases h

/-- `git checkout -b` makes the branch and moves one worktree to it. -/
theorem checkoutNew_switched {start : Text} (h : w.checkoutNew path branch start = some t) :
    w.Switched t path branch := by
  obtain ⟨wt, hwt, h⟩ := Option.bind_eq_some_iff.mp h
  split at h
  · cases h
  split at h
  · cases h
    exact (switched_switch (w := w.addBranch wt.repo branch) (editsAt_eq hwt) branch).of_addBranch
  · cases h

/-- `git worktree add` makes one worktree on the branch. -/
theorem worktreeAdd_switched {bare : Path} (h : w.worktreeAdd bare path branch = some t) :
    w.Switched t path branch := by
  rw [worktreeAdd] at h
  split at h
  · cases h
  case isFalse hmissing =>
    split at h
    · cases h
      exact (switched_switch (editsAt_of_not_isSome hmissing) branch).of_addBranch
    · cases h

/-- `git worktree add -b` makes the branch and one worktree on it. -/
theorem worktreeAddNew_switched {bare : Path} {start : Text}
    (h : w.worktreeAddNew bare path branch start = some t) : w.Switched t path branch := by
  rw [worktreeAddNew] at h
  split at h
  · cases h
  case isFalse hnew =>
    split at h
    · cases h
      refine (switched_switch (editsAt_of_not_isSome fun hsome => hnew ?_) branch).of_addBranch
      exact Bool.or_eq_true_iff.mpr (.inl hsome)
    · cases h

/-- A command of `git` does nothing or what it is to do. -/
theorem gitCommand_cases (o : Outcome) (result : Option World) :
    ((w.gitCommand o result).1 ≠ some true ∧ (w.gitCommand o result).2 = w) ∨
      ∃ t, result = some t ∧ w.gitCommand o result = (some true, t) := by
  unfold gitCommand
  split
  · exact .inl ⟨fun h => (by cases h), rfl⟩
  split
  · exact .inl ⟨fun h => (by cases h), rfl⟩
  split
  case h_1 t => exact .inr ⟨t, rfl, rfl⟩
  case h_2 => exact .inl ⟨fun h => (by cases h), rfl⟩

/-- A command of `git` leaves the state file alone. -/
theorem gitCommand_file {result : Option World}
    (h : ∀ t, result = some t → w.Switched t path branch) (o : Outcome) : (w.gitCommand o result).2.file = w.file := by
  rcases gitCommand_cases (w := w) o result with ⟨-, hsame⟩ | ⟨t, hresult, heq⟩
  · rw [hsame]
  · rw [heq]
    exact (h t hresult).file

/-- Only a write changes the state file. -/
theorem handle_file (hc : ∀ state, c ≠ .save state) (o : Outcome) : (w.handle c o).2.file = w.file := by
  cases c with
  | save state => exact absurd rfl (hc state)
  | checkout path branch => exact gitCommand_file (fun _ => checkout_switched) o
  | checkoutNew path branch start => exact gitCommand_file (fun _ => checkoutNew_switched) o
  | worktreeAdd bare path branch => exact gitCommand_file (fun _ => worktreeAdd_switched) o
  | worktreeAddNew bare path branch start => exact gitCommand_file (fun _ => worktreeAddNew_switched) o
  | createProjectDir | removeProjectDir | removeLink | symlink | tryCloneBare =>
    rw [handle]
    split <;> rfl
  | _ => rfl

/-- A call keeps the state file consistent, and `load` gives a consistent state. -/
theorem handle_ok (h : w.Consistent base) (hc : Keeps base c) (o : Outcome) :
    Gives base c (w.handle c o).1 ∧ (w.handle c o).2.Consistent base := by
  cases c with
  | load =>
    refine ⟨fun state hstate => ?_, h⟩
    change (if o.fails then none else w.file.load) = some state at hstate
    split at hstate
    · cases hstate
    exact h state (StateFile.eq_state_of_load hstate)
  | save state' =>
    refine ⟨trivial, fun state hstate => ?_⟩
    rw [handle] at hstate
    split at hstate
    · split at hstate
      · cases hstate
      · exact h state hstate
    · cases hstate
      exact hc
  | _ =>
    refine ⟨trivial, consistent_of_file h (handle_file ?_ o)⟩
    exact fun _ h => by cases h

/-- A first start writes an empty state, which is valid. -/
theorem Consistent.autoInit (h : w.Consistent base) : w.autoInit.Consistent base := by
  intro state hstate
  rw [World.autoInit] at hstate
  split at hstate
  · cases hstate
    exact Processes.valid_new
  · exact h state hstate
  · exact h state hstate

/-- Work in a worktree leaves the state file alone. -/
theorem changeEdits_file {project repo : Text} {f : List Edit → List Edit}
    (h : w.changeEdits project repo f = some t) : t.file = w.file := by
  rw [changeEdits] at h
  split at h
  · obtain ⟨wt, -, rfl⟩ := Option.map_eq_some_iff.mp h
    rfl
  · cases h
  · cases h

/-- Commands, edits, commits and removed directories keep the state file valid. -/
theorem Consistent.step {e : WorldEvent} (h : w.Consistent base) (hstep : w.step base e = some t) :
    t.Consistent base := by
  cases e with
  | command c outcome =>
    cases hstep
    have hcall : ∀ (s : World) (c : Call) (o : Outcome), s.Consistent base → Keeps base c →
        Gives base c (s.handle c o).1 ∧ (s.handle c o).2.Consistent base := fun _ _ o hs hc => handle_ok hs hc o
    exact (exec_of_sound hcall (program_ok c) h.autoInit).1
  | edit | commit =>
    rw [World.step] at hstep
    exact consistent_of_file h (changeEdits_file hstep)
  | removeDir project =>
    cases hstep
    exact h

/-- A world without a state file is consistent. -/
theorem Fresh.consistent (h : w.Fresh) : w.Consistent base := by
  intro state hstate
  rw [h.file] at hstate
  cases hstate

/-- Every state that a run writes is consistent. -/
theorem run_keepsConsistent {events : List WorldEvent} (hfresh : w.Fresh) (hrun : run (World.step base) w events = some t) :
    t.Consistent base :=
  run_invariant (fun _ _ _ hs hstep => Consistent.step hs hstep) hfresh.consistent hrun

end World

/-! ## Rules for the calls -/

section Rules

variable {w : World} {allowed : Call → Outcome → Prop} {α β : Type} {post : Except PmError α → World → Prop}

/-- A part of a command ends in `post`. -/
abbrev Ends (allowed : Call → Outcome → Prop) (post : Except PmError α → World → Prop) (x : Command α) (w : World) : Prop :=
  Wp World.handle allowed post x w

/-- The rule for a call: what follows is shown for each answer that is allowed. -/
theorem ends_ask_bind {f : Reply c → Command α}
    (h : ∀ o, allowed c o → Ends allowed post (f (w.handle c o).1) (w.handle c o).2) :
    Ends allowed post (ask c >>= f) w := h

/-- A call that only looks. -/
theorem ends_look_bind {f : Reply c → Command α} (hsame : ∀ o, (w.handle c o).2 = w)
    (h : ∀ o, allowed c o → Ends allowed post (f (w.handle c o).1) w) : Ends allowed post (ask c >>= f) w :=
  fun o ho => by
    rw [hsame]
    exact h o ho

/-- The rule for a call that has to succeed, at the end of a command. -/
theorem ends_askOk {e : PmError} {success : Reply c → Bool} {post : Except PmError Unit → World → Prop}
    (hok : ∀ o, allowed c o → success (w.handle c o).1 = true → post (.ok ()) (w.handle c o).2)
    (herror : ∀ o, allowed c o → success (w.handle c o).1 = false → post (.error e) (w.handle c o).2) :
    Ends allowed post (askOk c e success) w := by
  refine ends_ask_bind fun o ho => ?_
  rw [require]
  split
  case isTrue hsuccess => exact hok o ho hsuccess
  case isFalse hsuccess => exact herror o ho (Bool.eq_false_iff.mpr hsuccess)

/-- The rule for a call that has to succeed, with more to come. -/
theorem ends_askOk_bind {e : PmError} {success : Reply c → Bool} {f : Unit → Command α}
    (hok : ∀ o, allowed c o → success (w.handle c o).1 = true → Ends allowed post (f ()) (w.handle c o).2)
    (herror : ∀ o, allowed c o → success (w.handle c o).1 = false → post (.error e) (w.handle c o).2) :
    Ends allowed post (askOk c e success >>= f) w :=
  wp_bind.mpr (ends_askOk hok herror)

/-- What `exitStatus` does with the reply. -/
def replied : ExitStatus → Command Bool
  | some success => .pure success
  | none => .fail .gitNotRun

/-- A command of `git`: it is not run, it fails, or it does what it is to do. -/
theorem ends_git_bind {status : Reply c → ExitStatus} {result : Option World} {f : Bool → Command α}
    (hc : ∀ o, (status (w.handle c o).1, (w.handle c o).2) = w.gitCommand o result)
    (hrun : (∃ o, allowed c o ∧ o.fails = true) → post (.error .gitNotRun) w)
    (hno : ((∃ o, allowed c o ∧ o.refused = true) ∨ result = none) → Ends allowed post (f false) w)
    (hok : ∀ w', result = some w' → Ends allowed post (f true) w') :
    Ends allowed post (exitStatus c status >>= f) w := by
  refine wp_bind.mpr fun o ho => ?_
  have heq := hc o
  generalize w.handle c o = reply at heq
  obtain ⟨r, w'⟩ := reply
  show Wp World.handle allowed (Then f World.handle allowed post) (replied (status r)) w'
  unfold World.gitCommand at heq
  split at heq
  case isTrue hfails =>
    obtain ⟨hstatus, rfl⟩ := Prod.mk.inj heq
    rw [hstatus]
    exact hrun ⟨o, ho, hfails⟩
  split at heq
  case isTrue hrefused =>
    obtain ⟨hstatus, rfl⟩ := Prod.mk.inj heq
    rw [hstatus]
    exact hno (.inl ⟨o, ho, hrefused⟩)
  split at heq
  case h_1 w'' =>
    obtain ⟨hstatus, rfl⟩ := Prod.mk.inj heq
    rw [hstatus]
    exact hok w' rfl
  case h_2 =>
    obtain ⟨hstatus, rfl⟩ := Prod.mk.inj heq
    rw [hstatus]
    exact hno (.inr rfl)

/-- `ensure_slots` fills the pool at some time, and nothing else happens. -/
theorem ends_ensureSlots_bind {base : Path} {state : State} {repo : Text} {entry : RepoEntry}
    {f : State → Command α} (hentry : state.repos.lookup repo = some entry)
    (h : ∀ now, Ends allowed post (f (state.fill base repo entry.maxSlots now)) w) :
    Ends allowed post (ensureSlots base state repo >>= f) w := by
  rw [ensureSlots, hentry]
  exact ends_look_bind (fun _ => rfl) fun o _ => h o.now

/-- `load_or_err` gives the state of the file, or fails without a change. -/
theorem ends_loadOrErr_bind {f : State → Command α}
    (hno : ((∃ o, allowed .load o ∧ o.fails = true) ∨ w.file.load = none) → post (.error .notInitialized) w)
    (hok : ∀ state, (∃ o, allowed .load o ∧ o.fails = false) → w.file = .state state → Ends allowed post (f state) w) :
    Ends allowed post (loadOrErr >>= f) w := by
  refine wp_bind.mpr (ends_look_bind (fun _ => rfl) fun o ho => ?_)
  have hreply : (w.handle .load o).1 = if o.fails then none else w.file.load := rfl
  rw [hreply]
  rcases hfails : o.fails with _ | _
  · rw [if_neg Bool.false_ne_true]
    rcases hload : w.file.load with _ | state
    · exact hno (.inr hload)
    · exact hok state ⟨o, ho, hfails⟩ (StateFile.eq_state_of_load hload)
  · rw [if_pos rfl]
    exact hno (.inl ⟨o, ho, hfails⟩)

/-- The checks of an existing checkout change nothing. -/
theorem ends_existingCheckout_bind {extPath : Path} {f : Path → Command α}
    (hno : ∀ e, ((∃ o, allowed (.canonicalize extPath) o ∧ o.fails = true) ∨
      (w.checkouts.contains extPath || (w.worktrees.lookup extPath).isSome) = false) → post (.error e) w)
    (hok : (∃ o, allowed (.canonicalize extPath) o ∧ o.fails = false) →
      (w.checkouts.contains extPath || (w.worktrees.lookup extPath).isSome) = true → Ends allowed post (f extPath) w) :
    Ends allowed post (existingCheckout extPath >>= f) w := by
  refine wp_bind.mpr (ends_look_bind (fun _ => rfl) fun o ho => ?_)
  have hreply : (w.handle (.canonicalize extPath) o).1 = if o.fails then none else some extPath := rfl
  rw [hreply]
  rcases hfails : o.fails with _ | _
  · rw [if_neg Bool.false_ne_true]
    refine ends_look_bind (fun _ => rfl) fun o' _ => wp_require_bind (fun hthere => ?_) fun hmissing => ?_
    · exact hok ⟨o, ho, hfails⟩ hthere
    · exact hno _ (.inr hmissing)
  · rw [if_pos rfl]
    exact hno _ (.inl ⟨o, ho, hfails⟩)

/-- Whatever URL the checkout has, nothing changes. -/
theorem ends_existingUrl_bind {canonical : Path} {f : Text → Command α} (h : ∀ url, Ends allowed post (f url) w) :
    Ends allowed post (existingUrl canonical >>= f) w :=
  wp_bind.mpr (ends_look_bind (fun _ => rfl) fun _ _ => h _)

/-- A save replaces the state file, or fails, perhaps halfway. -/
theorem ends_save {state' : State} {post : Except PmError Unit → World → Prop}
    (hok : (∃ o, allowed (.save state') o ∧ o.fails = false) → post (.ok ()) (w.withFile (.state state')))
    (hno : ∀ e o, allowed (.save state') o → o.fails = true →
      post (.error e) (if o.torn then w.withFile .broken else w)) :
    Ends allowed post state'.save w := by
  refine ends_askOk (fun o ho hsaved => ?_) fun o ho hfailed => ?_
  · rcases hfails : o.fails with _ | _
    · rw [World.handle, hfails]
      exact hok ⟨o, ho, hfails⟩
    · rw [World.handle, hfails] at hsaved
      cases hsaved
  · rcases hfails : o.fails with _ | _
    · rw [World.handle, hfails] at hfailed
      cases hfailed
    · rw [World.handle, hfails]
      exact hno _ o ho hfails

/-- A save with more to come. -/
theorem ends_save_bind {state' : State} {f : Unit → Command α}
    (hok : (∃ o, allowed (.save state') o ∧ o.fails = false) →
      Ends allowed post (f ()) (w.withFile (.state state')))
    (hno : ∀ e o, allowed (.save state') o → o.fails = true →
      post (.error e) (if o.torn then w.withFile .broken else w)) :
    Ends allowed post (state'.save >>= f) w :=
  wp_bind.mpr (ends_save hok hno)

end Rules

end Builderbot.Pm
