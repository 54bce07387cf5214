import Builderbot.Lib.Posix
import Builderbot.Pm.OwnershipRuns

/-!
# The workspace as files

The calls of the commands as calls of the system: a name is joined to the directory of the workspace as `Path::join` does
it, and what the references lead to is found through all links. The state file is wherever `.pm/state.json` leads to.

What `git` does inside a worktree or a clone is left open. Other programs may do what they like with the files between two
commands, but a state is written by `pm` alone.
-/

namespace Builderbot.Pm

open Program

open Git (Text)

open Lib.Posix

/-- What is in a file. -/
inductive Content where
  | state (state : State)
  | other (text : Text)
deriving DecidableEq

abbrev Files : Type := FileSystem Content

/-- What comes from outside with a call. -/
structure FileOutcome where
  fails : Bool := false
  /-- What the file has after a write that fails, if it was touched. -/
  torn : Option Text := none
  /-- What is gone after a removal that fails. -/
  gone : List Path := []
  exit : ExitStatus := some true
  /-- What `git` says. -/
  answer : Option Text := none
  now : ℤ := 0
  terminal : Bool := false
  selection : Option ℕ := none

section Files

variable (base : Path)

/-! ## References -/

def pmDir : List Char := ".pm".toList

/-- `State::state_file`. -/
def stateRef : Ref := .ofPath (base ++ [pmDir, "state.json".toList])

/-- The directory of a project. -/
def projectRef (project : Text) : Ref := (Ref.ofPath base).join project

/-- The link of a project for a repository. -/
def linkRef (project repo : Text) : Ref := (projectRef base project).join repo

/-! ## The state file -/

/-- `State::load`. -/
def load (files : Files) : Option State :=
  (files.stat (stateRef base)).bind fun p =>
    match files.entry p with
    | some (.file (.state state)) => some state
    | _ => none

/-- `State::save`. -/
def saveState (files : Files) (state : State) (o : FileOutcome) : Bool × Files :=
  if o.fails then
    match o.torn with
    | some text => (false, (files.writeFile (stateRef base) (.other text)).2)
    | none => (false, files)
  else files.writeFile (stateRef base) (.state state)

/-- `init`. -/
def init (files : Files) (o : FileOutcome) : Bool × Files :=
  match files.createDirAll (.ofPath (base ++ [pmDir, "repos".toList])) with
  | (false, files) => (false, files)
  | (true, files) =>
    match files.createDirAll (.ofPath (base ++ [pmDir, "pool".toList])) with
    | (false, files) => (false, files)
    | (true, files) => saveState base files {} o

/-! ## Calls -/

/-- The end of `git worktree add`, which makes the directory. -/
def addWorktreeDir (files : Files) (worktree : Path) (exit : ExitStatus) : ExitStatus × Files :=
  (exit, if exit = some true then (files.createDirAll (.ofPath worktree)).2 else files)

/-- The reply to a call, and the files after it. -/
def handle (files : Files) : (c : Call) → FileOutcome → Reply c × Files
  | .load, o => (if o.fails then none else load base files, files)
  | .save state, o => saveState base files state o
  | .projectDirExists project, _ => ((files.stat (projectRef base project)).isSome, files)
  | .createProjectDir project, o => if o.fails then (false, files) else files.createDirAll (projectRef base project)
  | .removeProjectDir project, o =>
    if o.fails then (false, files.removePart (projectRef base project) o.gone)
    else files.removeDirAll (projectRef base project)
  | .linkExists project repo, _ =>
    (files.isLinkAt (linkRef base project repo) || (files.stat (linkRef base project repo)).isSome, files)
  | .removeLink project repo, o =>
    ((), if o.fails then files else (files.removeFile (linkRef base project repo)).2)
  | .symlink target project repo, o =>
    if o.fails then (false, files)
    else
      match files.symlink target (linkRef base project repo) with
      | some files => (true, files)
      | none => (false, files)
  | .pathExists path, _ => ((files.stat (.ofPath path)).isSome, files)
  | .canonicalize path, o => (if o.fails then none else files.stat (.ofPath path), files)
  | .hasGitDir path, _ => ((files.stat (.ofPath (path ++ [".git".toList]))).isSome, files)
  | .remoteUrl _, o => (o.answer, files)
  | .tryCloneBare _ dest, o => if o.fails then (false, files) else files.createDirAll (.ofPath dest)
  | .fetch _, _ => ((), files)
  | .defaultBranch _, o => (o.answer, files)
  | .checkout _ _, o => (o.exit, files)
  | .checkoutNew _ _ _, o => (o.exit, files)
  | .worktreeAdd _ worktree _, o => addWorktreeDir files worktree o.exit
  | .worktreeAddNew _ worktree _ _, o => addWorktreeDir files worktree o.exit
  | .now, o => (o.now, files)
  | .stdinIsTerminal, o => (o.terminal, files)
  | .menu _, o => (o.selection, files)

/-! ## Runs -/

/-- `main`, which makes a new workspace if there is none. -/
def main (c : PmCommand) (outcome : Call → FileOutcome) (files : Files) : Files :=
  if (files.stat (stateRef base)).isSome then (exec (handle base) outcome (c.program base) files).2
  else
    match init base files (outcome (.save {})) with
    | (true, files) => (exec (handle base) outcome (c.program base) files).2
    | (false, files) => files

/-- The data of a file that another program leaves: a text, or what was in a file before. -/
def Content.resolve (files : Files) : Text ⊕ Path → Content
  | .inl text => .other text
  | .inr p =>
    match files.entry p with
    | some (.file content) => content
    | _ => .other []

inductive FileEvent where
  | command (c : PmCommand) (outcome : Call → FileOutcome)
  /-- Other programs make, move, copy, write and remove files. -/
  | change (after : FileSystem (Text ⊕ Path))

/-- What happens to the files, one command at a time. -/
def filesStep (files : Files) : FileEvent → Option Files
  | .command c outcome => some (main base c outcome files)
  | .change after => some (after.map (Content.resolve files))

/-! ## Every state is consistent -/

/-- No file has a state. -/
def Stateless (files : Files) : Prop := ∀ p state, files.entry p ≠ some (.file (.state state))

/-- Every state in a file is consistent. -/
def StatesValid (files : Files) : Prop := ∀ p state, files.entry p = some (.file (.state state)) → state.Valid base

variable {base} {files files' : Files}

theorem StatesValid.of_files (h : StatesValid base files)
    (hfiles : ∀ p content, files'.entry p = some (.file content) → files.entry p = some (.file content)) :
    StatesValid base files' := fun p state hp => h p state (hfiles p _ hp)

theorem StatesValid.of_within (h : StatesValid base files) (hwithin : files'.Within files) : StatesValid base files' :=
  h.of_files fun p _ hp => hwithin p _ hp

theorem StatesValid.writeFile (h : StatesValid base files) {r : Ref} {content : Content}
    (hcontent : ∀ state, content = .state state → state.Valid base) : StatesValid base (files.writeFile r content).2 := by
  intro p state hp
  rcases FileSystem.writeFile_file hp with heq | hp
  · exact hcontent state heq.symm
  · exact h p state hp

theorem StatesValid.saveState (h : StatesValid base files) {state : State} (hstate : state.Valid base) (o : FileOutcome) :
    StatesValid base (Pm.saveState base files state o).2 := by
  rw [Pm.saveState]
  split
  · split
    · exact h.writeFile fun _ heq => by cases heq
    · exact h
  · refine h.writeFile fun state' heq => ?_
    rw [Content.state.injEq] at heq
    exact heq ▸ hstate

theorem StatesValid.createDirAll (h : StatesValid base files) (r : Ref) : StatesValid base (files.createDirAll r).2 :=
  h.of_files fun _ _ hp => FileSystem.createDirs_file hp

theorem StatesValid.load (h : StatesValid base files) {state : State} (hload : Pm.load base files = some state) :
    state.Valid base := by
  obtain ⟨p, -, hp⟩ := Option.bind_eq_some_iff.mp hload
  split at hp
  case h_1 state' hentry =>
    obtain rfl := Option.some.inj hp
    exact h p _ hentry
  case h_2 => cases hp

/-- A call keeps the states consistent, and `load` gives a consistent one. -/
theorem files_handle_ok (h : StatesValid base files) {c : Call} (hc : Keeps base c) (o : FileOutcome) :
    Gives base c (handle base files c o).1 ∧ StatesValid base (handle base files c o).2 := by
  cases c with
  | load =>
    refine ⟨fun state hstate => ?_, h⟩
    rw [handle] at hstate
    split at hstate
    · cases hstate
    · exact h.load hstate
  | save state => exact ⟨trivial, h.saveState hc o⟩
  -- a directory or a link is no state file
  | createProjectDir | tryCloneBare =>
    refine ⟨trivial, ?_⟩
    rw [handle]
    split
    · exact h
    · exact h.createDirAll _
  -- removing only takes state files away
  | removeProjectDir project =>
    refine ⟨trivial, ?_⟩
    rw [handle]
    split
    · exact h.of_within (FileSystem.within_removePart _ _ _)
    · exact h.of_within (FileSystem.within_removeDirAll _ _)
  | removeLink project repo =>
    refine ⟨trivial, ?_⟩
    rw [handle]
    dsimp only
    split
    · exact h
    · exact h.of_within (FileSystem.within_removeFile _ _)
  | symlink target project repo =>
    refine ⟨trivial, ?_⟩
    rw [handle]
    split
    · exact h
    · split
      case h_1 hlink => exact h.of_files fun _ _ hp => FileSystem.symlink_file hlink hp
      case h_2 => exact h
  | worktreeAdd | worktreeAddNew =>
    refine ⟨trivial, ?_⟩
    rw [handle, addWorktreeDir]
    dsimp only
    split
    · exact h.createDirAll _
    · exact h
  | _ => exact ⟨trivial, h⟩

theorem StatesValid.exec (h : StatesValid base files) (c : PmCommand) (outcome : Call → FileOutcome) :
    StatesValid base (Program.exec (handle base) outcome (c.program base) files).2 := by
  have hcall : ∀ (files : Files) (c : Call) (o : FileOutcome), StatesValid base files → Keeps base c →
      Gives base c (handle base files c o).1 ∧ StatesValid base (handle base files c o).2 :=
    fun _ _ o hs hc => files_handle_ok hs hc o
  exact (exec_of_sound hcall (program_ok c) h).1

theorem StatesValid.init (h : StatesValid base files) (o : FileOutcome) : StatesValid base (Pm.init base files o).2 := by
  rw [Pm.init]
  have hrepos := h.createDirAll (.ofPath (base ++ [pmDir, "repos".toList]))
  generalize files.createDirAll (.ofPath (base ++ [pmDir, "repos".toList])) = result at hrepos
  obtain ⟨_ | _, files⟩ := result
  · exact hrepos
  · have hpool := StatesValid.createDirAll hrepos (.ofPath (base ++ [pmDir, "pool".toList]))
    dsimp only at hpool ⊢
    generalize files.createDirAll (.ofPath (base ++ [pmDir, "pool".toList])) = result at hpool
    obtain ⟨_ | _, files⟩ := result
    · exact hpool
    · exact StatesValid.saveState hpool Processes.valid_new o

theorem StatesValid.main (h : StatesValid base files) (c : PmCommand) (outcome : Call → FileOutcome) :
    StatesValid base (Pm.main base c outcome files) := by
  rw [Pm.main]
  split
  · exact h.exec c outcome
  · have hinit := h.init (outcome (.save {}))
    generalize Pm.init base files (outcome (.save {})) = result at hinit
    obtain ⟨_ | _, files⟩ := result
    · exact hinit
    · exact StatesValid.exec hinit c outcome

theorem StatesValid.step (h : StatesValid base files) {e : FileEvent} (hstep : filesStep base files e = some files') :
    StatesValid base files' := by
  cases e with
  | command c outcome =>
    cases hstep
    exact h.main c outcome
  | change after =>
    cases hstep
    intro p state hp
    obtain ⟨e, -, he⟩ := Option.map_eq_some_iff.mp hp
    cases e with
    | dir | link => cases he
    | file data =>
      rw [Entry.file.injEq] at he
      cases data with
      | inl text => cases he
      | inr q =>
        rw [Content.resolve] at he
        split at he
        case h_1 content hq => exact h q state (he ▸ hq)
        case h_2 => cases he

/-- In every run, whatever other programs do, the states are consistent. -/
theorem run_statesValid {events : List FileEvent} (hstateless : Stateless files)
    (hrun : run (filesStep base) files events = some files') : StatesValid base files' :=
  run_invariant (fun _ _ _ hs hstep => StatesValid.step hs hstep) (fun p state hp => absurd hp (hstateless p state)) hrun

end Files

end Builderbot.Pm
