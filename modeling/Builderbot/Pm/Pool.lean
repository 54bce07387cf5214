import Builderbot.Pm.State

/-!
# The pool of worktrees

The functions of `core/pool.rs`, and of `core/git.rs` those that they call. A slot is taken for a project
before its worktree is prepared: the change is in the state that the command holds, and is lost with it when
the command fails.
-/

namespace Builderbot.Pm

open Git (Text)

def defaultMaxSlots : ℕ := 2

/-! ## Worktrees -/

/-- The status of a command of `git`, which has to run at least. -/
def exitStatus (c : Call) (status : Reply c → ExitStatus) : Command Bool := do
  match status (← ask c) with
  | some success => return success
  | none => .fail .gitNotRun

def mainBranch : Text := "main".toList

/-- `git::add_worktree`. -/
def addWorktree (barePath worktreePath : Path) (branch : Text) : Command Unit := do
  ask (.fetch barePath)
  if ← exitStatus (.worktreeAdd barePath worktreePath branch) id then return
  -- the branch may not exist
  let default := (← ask (.defaultBranch barePath) : Option Text).getD mainBranch
  .require (← exitStatus (.worktreeAddNew barePath worktreePath branch default) id) (.worktreeFailed branch)

/-- `git::checkout`. -/
def checkout (worktreePath : Path) (branch : Text) : Command Unit := do
  ask (.fetch worktreePath)
  if ← exitStatus (.checkout worktreePath branch) id then return
  if ← exitStatus (.checkoutNew worktreePath branch branch) id then return
  let default := (← ask (.defaultBranch worktreePath) : Option Text).getD mainBranch
  .require (← exitStatus (.checkoutNew worktreePath branch default) id) (.checkoutFailed branch)

/-- `prepare_slot`. -/
def prepareSlot (slotPath barePath : Path) (branch : Text) : Command Unit := do
  if (← ask (.pathExists slotPath) : Bool) then checkout slotPath branch
  else addWorktree barePath slotPath branch

/-! ## Slots -/

variable (base : Path)

def newSlot (repo : Text) (now : ℤ) (index : ℕ) : Slot where
  index
  path := slotPath base repo index
  owner := none
  branch := none
  lastUsed := now

/-- The loop of `ensure_slots`. -/
def fillSlots (repo : Text) (maxSlots : ℕ) (now : ℤ) (slots : List Slot) : List Slot :=
  slots ++ (List.range' slots.length (maxSlots - slots.length)).map (newSlot base repo now)

/-- The state with all the slots of the repository. -/
abbrev State.fill (state : State) (repo : Text) (maxSlots : ℕ) (now : ℤ) : State :=
  state.setSlots repo (fillSlots base repo maxSlots now (state.slots repo))

/-- `ensure_slots`. -/
def ensureSlots (state : State) (repo : Text) : Command State := do
  match state.repos.lookup repo with
  | none => .fail (.repoNotFound repo)
  | some entry =>
    let now : ℤ ← ask .now
    return state.fill base repo entry.maxSlots now

structure EvictionCandidate where
  slotIndex : ℕ
  owner : Text
  branch : Option Text
  lastUsed : ℤ
deriving DecidableEq, Repr

inductive AcquireResult where
  | acquired (index : ℕ)
  | needsEviction (candidates : List EvictionCandidate) (currentMaxSlots : ℕ)

/-- The slot goes to the project. -/
def Slot.take (project branch : Text) (now : ℤ) (slot : Slot) : Slot :=
  { slot with owner := some project, branch := some branch, lastUsed := now }

/-- The slots that can be taken away: those of projects that are not pinned. -/
def State.candidates (state : State) (repo : Text) : List EvictionCandidate :=
  let pinned := (state.projects.values.filter fun p => p.pinned).map fun p => p.name
  ((state.slots repo).filter fun s => s.owner.all fun o => !pinned.contains o).map fun s =>
    ⟨s.index, s.owner.getD [], s.branch, s.lastUsed⟩

/-- A project takes the slot, whose worktree is then prepared if it has to. -/
def takeSlot (state : State) (entry : RepoEntry) (repo project branch : Text) (slot : Slot) (i : ℕ)
    (needsCheckout : Bool) : Command State := do
  let now : ℤ ← ask .now
  if needsCheckout then prepareSlot slot.path entry.barePath branch
  return state.setSlot repo i (Slot.take project branch now)

/-- `acquire_slot`. -/
def acquireSlot (state : State) (repo project branch : Text) : Command (State × AcquireResult) := do
  let state ← ensureSlots base state repo
  match state.repos.lookup repo with
  | none => .fail .panicked
  | some entry =>
    let slots := state.slots repo
    -- already owned by this project?
    match slots.zipIdx.find? fun s => s.1.owner = some project with
    | some (slot, i) =>
      let state ← takeSlot state entry repo project branch slot i (slot.branch ≠ some branch)
      return (state, .acquired slot.index)
    | none =>
      -- a free slot?
      match slots.zipIdx.find? fun s => s.1.owner = none with
      | some (slot, i) =>
        let state ← takeSlot state entry repo project branch slot i true
        return (state, .acquired slot.index)
      | none =>
        let candidates := state.candidates repo
        if candidates = [] then .fail (.allPinned repo slots.length)
        else return (state, .needsEviction candidates entry.maxSlots)

/-- What `execute_eviction` does to the project that loses its slot. -/
def evictOwner (state : State) (repo : Text) : Option Text → Command State
  | none => return state
  | some owner => do
      if (← ask (.linkExists owner repo) : Bool) then ask (.removeLink owner repo)
      return state.unlistRepo owner repo

/-- `execute_eviction`. The worktree is prepared before anything is removed. -/
def executeEviction (state : State) (repo : Text) (evictIdx : ℕ) (project branch : Text) :
    Command (State × ℕ) := do
  match state.repos.lookup repo, (state.slots repo)[evictIdx]? with
  | some entry, some slot =>
    prepareSlot slot.path entry.barePath branch
    let state ← evictOwner state repo slot.owner
    let now : ℤ ← ask .now
    return (state.setSlot repo evictIdx (Slot.take project branch now), evictIdx)
  | _, _ => .fail .panicked

/-- `grow_and_acquire`. -/
def growAndAcquire (state : State) (repo project branch : Text) : Command (State × ℕ) := do
  match state.repos.lookup repo with
  | none => .fail (.repoNotFound repo)
  | some entry =>
    let entry := { entry with maxSlots := entry.maxSlots + 1 }
    let state ← ensureSlots base { state with repos := state.repos.insert repo entry } repo
    match (state.slots repo).zipIdx.find? fun s => s.1.owner = none with
    | none => .fail .panicked
    | some (slot, i) =>
      let state ← takeSlot state entry repo project branch slot i true
      return (state, slot.index)

/-- The slot is free if the project owns it. -/
def Slot.release (project : Text) (slot : Slot) : Slot :=
  if slot.owner = some project then { slot with owner := none } else slot

/-- `release_project`. -/
def State.releaseProject (state : State) (project : Text) : State :=
  { state with pool := state.pool.mapValues fun slots => slots.map (Slot.release project) }

end Builderbot.Pm
