import Builderbot.Lib.SharedSets
import Builderbot.Penpal.EventRouting

/-!
# The watched directories

The watcher of `apps/penpal/internal/watcher/watcher.go` keeps two sets of directories that it watches: the
roots of the workspaces and projects, and the directories that the focus of the windows asks for. Both share
the registrations of `fsnotify`. `syncBaseWatchesLocked` and `syncDynamicWatchesLocked` bring one of the sets up
to date under the lock of the focus, and look into the other before they add or remove a path.

The operations of the watcher run in any order, while projects and directories change, and every call of
`watcher.Add` may fail.
-/

namespace Builderbot.Penpal

open Git (Text)

/-- The name that `parseWorktreeList` gives a worktree. -/
def Worktree.name (wt : Worktree) : Text := base wt.path

/-- A type of `AllSourceTypes`. -/
structure RegisteredType extends AutoDetect where
  skipDirs : List Text := []

/-- `filepath.Join` of an absolute path and the text of a relative one. -/
def join (root : Path) (path : Text) : Path :=
  (path.splitOn '/').foldl
    (fun root name =>
      if name = [] ∨ name = ['.'] then root else if name = ['.', '.'] then root.dropLast else root ++ [name])
    root

/-- `filepath.Join` of an absolute path and what `filepath.Rel` gives. -/
def joinRel (root : Path) (path : RelPath) : Path := root.take (root.length - path.ups) ++ path.down

def comments : Text := "comments".toList

def defaultFocusWindowID : Text := "__default__".toList

def normalizeWindowID (windowID : Text) : Text := if windowID = [] then defaultFocusWindowID else windowID

inductive FocusTarget where
  | project (name : Text)
  | file (project path worktree : Text)
deriving DecidableEq

/-! ## The directories of a focus -/

section Collect

variable (getSourceType : Text → Option SourceType) (allSourceTypes : List RegisteredType) (disk : Disk)

/-- `collectWalkDirs`. -/
def collectWalkDirs (dir : Path) (skipDirs : List Text) (out : List Path) : List Path :=
  match disk.fs.at? dir with
  | some tree =>
    FileTree.walk (fun path out => if skipDirs.contains (base path) then (false, out) else (true, out.insert path))
      (fun _ _ out => out) dir tree out
  | none => out

/-- `collectWalkDirs` after the test that there is a directory. -/
def collectExistingDirs (dir : Path) (skipDirs : List Text) (out : List Path) : List Path :=
  if Watch.isDir disk dir then collectWalkDirs disk dir skipDirs out else out

/-- The directories that a source skips. -/
def FileSource.skipDirs (source : FileSource) : List Text :=
  ((getSourceType source.typeName).map SourceType.skipDirs).getD []

/-- The directories of a source and of the files it lists. -/
def collectSourceDirs (p : ListedProject) (out : List Path) (source : FileSource) : List Path :=
  let out :=
    match source.rootPath with
    | some root => collectWalkDirs disk root (source.skipDirs getSourceType) out
    | none => out
  source.files.foldl
    (fun out file =>
      -- the root of the project is in the other set
      if file.dropLast = p.path then out
      else if Watch.isDir disk file.dropLast then out.insert file.dropLast
      else out)
    out

/-- The directories in a worktree. -/
def collectWorktreeDirs (p : ListedProject) (out : List Path) (wt : Worktree) : List Path :=
  if wt.isMain then out
  else
    let out := allSourceTypes.foldl
      (fun out st =>
        if st.dir = [] then out else collectExistingDirs disk (join wt.path st.dir) st.skipDirs out) out
    let out := p.sources.foldl
      (fun out source =>
        match source.rootPath with
        | some root =>
          collectExistingDirs disk (joinRel wt.path (rel p.path root)) (source.skipDirs getSourceType) out
        | none => out) out
    collectExistingDirs disk (wt.path ++ [dotPenpal, comments]) [] out

/-- `collectProjectWatchDirs`. -/
def collectProjectWatchDirs (p : ListedProject) : List Path :=
  let dirs := p.sources.foldl (collectSourceDirs getSourceType disk p) []
  let dirs := collectExistingDirs disk (p.path ++ [dotPenpal, comments]) [] dirs
  p.worktrees.foldl (collectWorktreeDirs getSourceType allSourceTypes disk p) dirs

/-- `collectFileWatchDirs`, for the project that it finds. -/
def collectFileWatchDirs (p : ListedProject) (path worktree : Text) : List Path :=
  let basePath :=
    if worktree ≠ [] then
      ((p.worktrees.find? fun wt => wt.name = worktree).map fun wt => wt.path).getD p.path
    else p.path
  let fileDir := (join basePath path).dropLast
  if Watch.isDir disk fileDir then [fileDir] else []

/-- The directories of one focus, with the projects of the cache. -/
def focusDirs (cached : List ListedProject) (target : FocusTarget) : List Path :=
  let findProject := fun name => cached.find? fun p => p.qualifiedName = name
  match target with
  | .project name =>
    match findProject name with
    | some p => collectProjectWatchDirs getSourceType allSourceTypes disk p
    | none => []
  | .file project path worktree =>
    match findProject project with
    | some p => collectFileWatchDirs disk p path worktree
    | none => []

/-! ### What is collected -/

/-- A directory at or below `dir`, where no directory from `dir` on has a name that is skipped. -/
def Walked (dir : Path) (skipDirs : List Text) (q : Path) : Prop :=
  ∃ rest, dir ++ rest = q ∧ Watch.isDir disk q = true ∧ ∀ d ∈ FileTree.way dir rest ++ [q], base d ∉ skipDirs

variable {getSourceType allSourceTypes disk} {dir q : Path} {skipDirs : List Text} {out : List Path}

theorem isDir_iff : Watch.isDir disk q = true ↔ ∃ entries, disk.fs.at? q = some (.dir entries) := by
  rw [Watch.isDir]
  rcases disk.fs.at? q with _ | ⟨data | entries⟩ <;> simp

theorem mem_collectWalkDirs (hvalid : disk.fs.Valid) :
    q ∈ collectWalkDirs disk dir skipDirs out ↔ q ∈ out ∨ Walked disk dir skipDirs q := by
  rw [collectWalkDirs]
  cases hat : disk.fs.at? dir with
  | none =>
    refine ⟨.inl, ?_⟩
    rintro (h | ⟨rest, rfl, hdir, -⟩)
    · exact h
    · obtain ⟨entries, hentries⟩ := isDir_iff.mp hdir
      rw [FileTree.at?_append, hat] at hentries
      cases hentries
  | some tree =>
    dsimp only
    rw [FileTree.mem_walk_insert (fun path => skipDirs.contains (base path)) (hvalid.at? hat)]
    refine or_congr_right (exists_congr fun rest => ?_)
    constructor
    · rintro ⟨entries, rfl, hentries, hway⟩
      refine ⟨rfl, isDir_iff.mpr ⟨entries, ?_⟩, by simpa using hway⟩
      rw [FileTree.at?_append, hat]
      exact hentries
    · rintro ⟨rfl, hdir, hway⟩
      obtain ⟨entries, hentries⟩ := isDir_iff.mp hdir
      rw [FileTree.at?_append, hat] at hentries
      exact ⟨entries, rfl, hentries, by simpa using hway⟩

theorem mem_collectExistingDirs (hvalid : disk.fs.Valid) :
    q ∈ collectExistingDirs disk dir skipDirs out ↔ q ∈ out ∨ Walked disk dir skipDirs q := by
  rw [collectExistingDirs]
  split
  · exact mem_collectWalkDirs hvalid
  case isFalse hdir =>
    refine ⟨.inl, ?_⟩
    rintro (h | ⟨_ | ⟨name, rest⟩, rfl, hq, -⟩)
    · exact h
    · rw [List.append_nil] at hq
      exact absurd hq hdir
    -- what is above a directory is one
    · obtain ⟨entries, hentries⟩ := isDir_iff.mp hq
      rw [FileTree.at?_append] at hentries
      obtain ⟨tree, hat, hbelow⟩ := Option.bind_eq_some_iff.mp hentries
      rcases tree with data | entries'
      · rw [FileTree.at?] at hbelow
        cases hbelow
      · exact absurd (isDir_iff.mpr ⟨entries', hat⟩) hdir

/-- What the steps of a loop add. -/
theorem mem_foldl_iff {α : Type} {f : List Path → α → List Path} {P : α → Prop}
    (h : ∀ out a, q ∈ f out a ↔ q ∈ out ∨ P a) (l : List α) (out : List Path) :
    q ∈ l.foldl f out ↔ q ∈ out ∨ ∃ a ∈ l, P a := by
  induction l generalizing out with
  | nil => simp
  | cons a l ih =>
    rw [List.foldl_cons, ih, h, List.exists_mem_cons_iff, or_assoc]

variable {p : ListedProject}

theorem mem_collectSourceDirs (hvalid : disk.fs.Valid) (source : FileSource) :
    q ∈ collectSourceDirs getSourceType disk p out source ↔ q ∈ out ∨
      (∃ root ∈ source.rootPath, Walked disk root (source.skipDirs getSourceType) q) ∨
      ∃ file ∈ source.files, q = file.dropLast ∧ q ≠ p.path ∧ Watch.isDir disk q = true := by
  rw [collectSourceDirs, mem_foldl_iff (P := fun file => q = file.dropLast ∧ q ≠ p.path ∧ Watch.isDir disk q = true),
    ← or_assoc]
  · refine or_congr_left ?_
    cases source.rootPath with
    | none => simp
    | some root => simpa using mem_collectWalkDirs hvalid
  · intro out file
    by_cases hq : q = file.dropLast
    · subst hq
      split
      · simp_all
      · split <;> simp_all
    · split
      · simp [hq]
      · split <;> simp [hq]

theorem mem_collectWorktreeDirs (hvalid : disk.fs.Valid) (wt : Worktree) :
    q ∈ collectWorktreeDirs getSourceType allSourceTypes disk p out wt ↔ q ∈ out ∨ (wt.isMain = false ∧
      ((∃ st ∈ allSourceTypes, st.dir ≠ [] ∧ Walked disk (join wt.path st.dir) st.skipDirs q) ∨
        (∃ source ∈ p.sources, ∃ root ∈ source.rootPath,
          Walked disk (joinRel wt.path (rel p.path root)) (source.skipDirs getSourceType) q) ∨
        Walked disk (wt.path ++ [dotPenpal, comments]) [] q)) := by
  rw [collectWorktreeDirs]
  cases wt.isMain with
  | true => simp
  | false =>
    simp only [Bool.false_eq_true, if_false, true_and]
    rw [mem_collectExistingDirs hvalid, mem_foldl_iff (P := fun source => ∃ root ∈ source.rootPath,
        Walked disk (joinRel wt.path (rel p.path root)) (source.skipDirs getSourceType) q),
      mem_foldl_iff (P := fun st => st.dir ≠ [] ∧ Walked disk (join wt.path st.dir) st.skipDirs q), or_assoc, or_assoc]
    · intro out st
      split
      case isTrue hdir => simp [hdir]
      case isFalse hdir => simpa [hdir] using mem_collectExistingDirs hvalid
    · intro out source
      cases source.rootPath with
      | none => simp
      | some root => simpa using mem_collectExistingDirs hvalid

/-- A project asks for the directories of its sources and comments, and for those in its other worktrees. -/
theorem mem_collectProjectWatchDirs (hvalid : disk.fs.Valid) :
    q ∈ collectProjectWatchDirs getSourceType allSourceTypes disk p ↔
      (∃ source ∈ p.sources, (∃ root ∈ source.rootPath, Walked disk root (source.skipDirs getSourceType) q) ∨
        ∃ file ∈ source.files, q = file.dropLast ∧ q ≠ p.path ∧ Watch.isDir disk q = true) ∨
      Walked disk (p.path ++ [dotPenpal, comments]) [] q ∨
      ∃ wt ∈ p.worktrees, wt.isMain = false ∧
        ((∃ st ∈ allSourceTypes, st.dir ≠ [] ∧ Walked disk (join wt.path st.dir) st.skipDirs q) ∨
          (∃ source ∈ p.sources, ∃ root ∈ source.rootPath,
            Walked disk (joinRel wt.path (rel p.path root)) (source.skipDirs getSourceType) q) ∨
          Walked disk (wt.path ++ [dotPenpal, comments]) [] q) := by
  rw [collectProjectWatchDirs, mem_foldl_iff (fun out => mem_collectWorktreeDirs hvalid), mem_collectExistingDirs hvalid,
    mem_foldl_iff (fun out => mem_collectSourceDirs hvalid), or_assoc]
  simp

/-- A file asks for its directory, in the worktree of that name if the project has one. -/
theorem mem_collectFileWatchDirs {path worktree : Text} :
    q ∈ collectFileWatchDirs disk p path worktree ↔ Watch.isDir disk q = true ∧
      ((∃ wt, worktree ≠ [] ∧ p.worktrees.find? (fun wt => wt.name = worktree) = some wt ∧
          q = (join wt.path path).dropLast) ∨
        ((worktree = [] ∨ ∀ wt ∈ p.worktrees, wt.name ≠ worktree) ∧ q = (join p.path path).dropLast)) := by
  have hdir : ∀ root : Path, (q ∈ if Watch.isDir disk (join root path).dropLast then [(join root path).dropLast] else []) ↔
      Watch.isDir disk q = true ∧ q = (join root path).dropLast := by
    intro root
    by_cases hq : q = (join root path).dropLast
    · subst hq
      split <;> simp_all
    · split <;> simp [hq]
  rw [collectFileWatchDirs, hdir]
  refine and_congr_right fun _ => ?_
  by_cases hworktree : worktree = []
  · simp [hworktree]
  · cases hfind : p.worktrees.find? fun wt => wt.name = worktree with
    | none => simpa [hworktree] using fun _ => hfind
    | some wt =>
      have hname : wt.name = worktree := by simpa using List.find?_some hfind
      simpa [hworktree, hfind] using fun h _ => (h wt (List.mem_of_find?_eq_some hfind) hname).elim

end Collect

/-! ## The watcher -/

/-- A call of `watcher.Remove`, with both sets at that time. -/
structure Removal where
  path : Path
  base : List Path
  dynamic : List Path

structure WatchSets where
  disk : Disk
  /-- The projects of the cache. -/
  cached : List ListedProject
  workspacePaths : List Path := []
  /-- The projects of the last `syncBaseWatchesLocked`. -/
  listed : List ListedProject := []
  /-- `discoverFn` is set. -/
  started : Bool := false
  /-- What the `rediscoverProjects` that runs has found. -/
  rediscovering : Option (List ListedProject) := none
  windowFocuses : Table Text FocusTarget := ∅
  baseWatched : List Path := []
  dynamicWatched : List Path := []
  /-- The paths registered with `fsnotify`. -/
  registered : List Path := []
  /-- The paths whose `Add` failed in the last synchronisation of each set. -/
  baseFailed : List Path := []
  dynamicFailed : List Path := []
  /-- What the focuses asked for in the last synchronisation. -/
  focused : List Path := []
  removals : List Removal := []

/-- The results of the calls of `watcher.Add`, of each of the two synchronisations. -/
structure AddResults where
  base : Path → Bool
  dynamic : Path → Bool

inductive WatchOp where
  | changeDisk (disk : Disk)
  | changeProjects (projects : List ListedProject)
  | start (workspacePaths : List Path) (adds : AddResults)
  | refresh (workspacePaths : List Path) (projects : List ListedProject) (adds : AddResults)
  | setWindowFocusProject (windowID name : Text) (addOk : Path → Bool)
  | setWindowFocusFile (windowID projectName filePath worktree : Text) (addOk : Path → Bool)
  | clearWindowFocus (windowID : Text) (addOk : Path → Bool)
  | clearAllFocus (addOk : Path → Bool)
  /-- `rediscoverProjects` until it takes the lock, with the result of `discoverFn`. -/
  | rediscoverProjects (result : Option (List ListedProject))
  /-- The rest of it. -/
  | watchRediscovered (adds : AddResults)

namespace WatchSets

/-- The paths that `syncBaseWatchesLocked` asks for. -/
def rootPaths (workspacePaths : List Path) (projects : List ListedProject) : List Path :=
  workspacePaths ∪ projects.map fun p => p.path

variable (getSourceType : Text → Option SourceType) (allSourceTypes : List RegisteredType) (s : WatchSets)

/-- The paths that `syncDynamicWatchesLocked` asks for. -/
def focusPaths : List Path :=
  s.windowFocuses.values.foldl
    (fun out target => out ∪ focusDirs getSourceType allSourceTypes s.disk s.cached target) []

/-- `syncBaseWatchesLocked`. -/
def syncBaseWatches (workspacePaths : List Path) (projects : List ListedProject) (addOk : Path → Bool) : WatchSets :=
  let out := SharedSets.sync (rootPaths workspacePaths projects) s.dynamicWatched addOk s.baseWatched s.registered
  { s with
    workspacePaths
    listed := projects
    baseWatched := out.own
    registered := out.registered
    baseFailed := out.failed
    removals := out.removals.map (fun r => ⟨r.1, r.2, s.dynamicWatched⟩) ++ s.removals }

/-- `syncDynamicWatchesLocked`. -/
def syncDynamicWatches (addOk : Path → Bool) : WatchSets :=
  let desired := s.focusPaths getSourceType allSourceTypes
  let out := SharedSets.sync desired s.baseWatched addOk s.dynamicWatched s.registered
  { s with
    dynamicWatched := out.own
    registered := out.registered
    dynamicFailed := out.failed
    focused := desired
    removals := out.removals.map (fun r => ⟨r.1, s.baseWatched, r.2⟩) ++ s.removals }

/-- Both under one lock. -/
def syncWatches (workspacePaths : List Path) (projects : List ListedProject) (adds : AddResults) : WatchSets :=
  (s.syncBaseWatches workspacePaths projects adds.base).syncDynamicWatches getSourceType allSourceTypes adds.dynamic

/-- `setWindowFocus`. -/
def setWindowFocus (windowID : Text) (target : FocusTarget) (addOk : Path → Bool) : WatchSets :=
  if s.windowFocuses.lookup windowID = some target then s
  else
    { s with windowFocuses := s.windowFocuses.insert windowID target }.syncDynamicWatches
      getSourceType allSourceTypes addOk

def step : WatchOp → Option WatchSets
  | .changeDisk disk => some { s with disk }
  | .changeProjects cached => some { s with cached }
  | .start workspacePaths adds =>
    some ({ s with started := true }.syncWatches getSourceType allSourceTypes workspacePaths s.cached adds)
  | .refresh workspacePaths projects adds =>
    some (s.syncWatches getSourceType allSourceTypes workspacePaths projects adds)
  | .setWindowFocusProject windowID name addOk =>
    some (s.setWindowFocus getSourceType allSourceTypes (normalizeWindowID windowID) (.project name) addOk)
  | .setWindowFocusFile windowID projectName filePath worktree addOk =>
    some (s.setWindowFocus getSourceType allSourceTypes (normalizeWindowID windowID)
      (.file projectName filePath worktree) addOk)
  | .clearWindowFocus windowID addOk =>
    let windowID := normalizeWindowID windowID
    if (s.windowFocuses.lookup windowID).isNone then some s
    else
      some ({ s with windowFocuses := s.windowFocuses.erase windowID }.syncDynamicWatches
        getSourceType allSourceTypes addOk)
  | .clearAllFocus addOk =>
    some ({ s with windowFocuses := ∅ }.syncDynamicWatches getSourceType allSourceTypes addOk)
  | .rediscoverProjects result =>
    if !s.started then some s
    -- `rediscoverMu` is held by the one that runs
    else if s.rediscovering.isSome then none
    else
      match result with
      | some projects => some { s with cached := projects, rediscovering := some projects }
      | none => some s
  | .watchRediscovered adds =>
    s.rediscovering.map fun projects =>
      { s with rediscovering := none }.syncWatches getSourceType allSourceTypes s.workspacePaths projects adds

/-- What an operation calls `syncBaseWatchesLocked` with, and the results of its calls of `watcher.Add`. -/
def baseSync : WatchOp → Option (List Path × List ListedProject × (Path → Bool))
  | .start workspacePaths adds => some (workspacePaths, s.cached, adds.base)
  | .refresh workspacePaths projects adds => some (workspacePaths, projects, adds.base)
  | .watchRediscovered adds => s.rediscovering.map fun projects => (s.workspacePaths, projects, adds.base)
  | _ => none

/-- The results of `watcher.Add` in the `syncDynamicWatchesLocked` of an operation, unless it returns before that. -/
def focusSync : WatchOp → Option (Path → Bool)
  | .changeDisk _ | .changeProjects _ | .rediscoverProjects _ => none
  | .setWindowFocusProject windowID name addOk =>
    if s.windowFocuses.lookup (normalizeWindowID windowID) = some (.project name) then none else some addOk
  | .setWindowFocusFile windowID projectName filePath worktree addOk =>
    if s.windowFocuses.lookup (normalizeWindowID windowID) = some (.file projectName filePath worktree) then none
    else some addOk
  | .clearWindowFocus windowID addOk =>
    if s.windowFocuses.lookup (normalizeWindowID windowID) = none then none else some addOk
  | .clearAllFocus addOk => some addOk
  | .start _ adds | .refresh _ _ adds | .watchRediscovered adds => some adds.dynamic

/-- What is needed after an operation is what it has synchronised with, and otherwise what was needed before. Only paths
whose `Add` did not succeed have failed. -/
structure Synced (op : WatchOp) (t : WatchSets) : Prop where
  base : ∀ workspacePaths projects addOk, s.baseSync op = some (workspacePaths, projects, addOk) →
    t.workspacePaths = workspacePaths ∧ t.listed = projects ∧ ∀ path ∈ t.baseFailed, addOk path = false
  base_none : s.baseSync op = none →
    t.workspacePaths = s.workspacePaths ∧ t.listed = s.listed ∧ t.baseFailed = s.baseFailed
  focus : ∀ addOk, s.focusSync op = some addOk →
    t.focused = t.focusPaths getSourceType allSourceTypes ∧ ∀ path ∈ t.dynamicFailed, addOk path = false
  focus_none : s.focusSync op = none → t.focused = s.focused ∧ t.dynamicFailed = s.dynamicFailed

/-- What is registered is what the sets have, they have what is needed unless its `Add` failed, and no path was
unregistered that one of the sets had. -/
structure Consistent (s : WatchSets) : Prop where
  registered_iff : ∀ path, path ∈ s.registered ↔ path ∈ s.baseWatched ∨ path ∈ s.dynamicWatched
  base_of_needed : ∀ path ∈ rootPaths s.workspacePaths s.listed, path ∈ s.baseFailed ∨ path ∈ s.baseWatched
  dynamic_of_needed : ∀ path ∈ s.focused, path ∈ s.dynamicFailed ∨ path ∈ s.dynamicWatched
  removed : ∀ r ∈ s.removals, r.path ∉ r.base ∧ r.path ∉ r.dynamic

variable {getSourceType allSourceTypes s}

/-- What the sets are made from does not matter. -/
theorem Consistent.frame (h : s.Consistent) (disk : Disk) (cached : List ListedProject) (started : Bool)
    (rediscovering : Option (List ListedProject)) (windowFocuses : Table Text FocusTarget) :
    Consistent { s with disk, cached, started, rediscovering, windowFocuses } :=
  ⟨h.registered_iff, h.base_of_needed, h.dynamic_of_needed, h.removed⟩

theorem Consistent.syncBaseWatches (h : s.Consistent) (workspacePaths : List Path) (projects : List ListedProject)
    (addOk : Path → Bool) : (s.syncBaseWatches workspacePaths projects addOk).Consistent := by
  have hsync : SharedSets.Shared s.dynamicWatched (SharedSets.sync (rootPaths workspacePaths projects)
      s.dynamicWatched addOk s.baseWatched s.registered) := SharedSets.sync_shared h.registered_iff
  refine ⟨hsync.registered_iff, fun path hpath => SharedSets.mem_sync_failed_or_own hpath, h.dynamic_of_needed, ?_⟩
  intro r hr
  rcases List.mem_append.mp hr with hr | hr
  · obtain ⟨q, hq, rfl⟩ := List.mem_map.mp hr
    exact hsync.removed q hq
  · exact h.removed r hr

theorem Consistent.syncDynamicWatches (h : s.Consistent) (addOk : Path → Bool) :
    (s.syncDynamicWatches getSourceType allSourceTypes addOk).Consistent := by
  have hsync : SharedSets.Shared s.baseWatched (SharedSets.sync (s.focusPaths getSourceType allSourceTypes)
      s.baseWatched addOk s.dynamicWatched s.registered) :=
    SharedSets.sync_shared fun path => (h.registered_iff path).trans or_comm
  refine ⟨fun path => (hsync.registered_iff path).trans or_comm, h.base_of_needed,
    fun path hpath => SharedSets.mem_sync_failed_or_own hpath, ?_⟩
  intro r hr
  rcases List.mem_append.mp hr with hr | hr
  · obtain ⟨q, hq, rfl⟩ := List.mem_map.mp hr
    exact (hsync.removed q hq).symm
  · exact h.removed r hr

theorem Consistent.syncWatches (h : s.Consistent) (workspacePaths : List Path) (projects : List ListedProject)
    (adds : AddResults) : (s.syncWatches getSourceType allSourceTypes workspacePaths projects adds).Consistent :=
  (h.syncBaseWatches workspacePaths projects adds.base).syncDynamicWatches adds.dynamic

theorem Consistent.setWindowFocus (h : s.Consistent) (windowID : Text) (target : FocusTarget)
    (addOk : Path → Bool) : (s.setWindowFocus getSourceType allSourceTypes windowID target addOk).Consistent := by
  rw [WatchSets.setWindowFocus]
  split
  · exact h
  · exact (h.frame s.disk s.cached s.started s.rediscovering _).syncDynamicWatches addOk

theorem Consistent.step (h : s.Consistent) {op : WatchOp} {t : WatchSets}
    (hstep : s.step getSourceType allSourceTypes op = some t) : t.Consistent := by
  -- the operations that change no watch only need the frame
  cases op with
  | changeDisk disk =>
    cases hstep
    exact h.frame disk s.cached s.started s.rediscovering s.windowFocuses
  | changeProjects cached =>
    cases hstep
    exact h.frame s.disk cached s.started s.rediscovering s.windowFocuses
  | start workspacePaths adds =>
    cases hstep
    exact (h.frame s.disk s.cached true s.rediscovering s.windowFocuses).syncWatches _ _ _
  | refresh workspacePaths projects adds =>
    cases hstep
    exact h.syncWatches _ _ _
  | setWindowFocusProject | setWindowFocusFile =>
    cases hstep
    exact h.setWindowFocus _ _ _
  | clearWindowFocus windowID addOk =>
    rw [WatchSets.step] at hstep
    split at hstep
    · cases hstep
      exact h
    · cases hstep
      exact (h.frame s.disk s.cached s.started s.rediscovering _).syncDynamicWatches addOk
  | clearAllFocus addOk =>
    cases hstep
    exact (h.frame s.disk s.cached s.started s.rediscovering _).syncDynamicWatches addOk
  | rediscoverProjects result =>
    simp only [WatchSets.step] at hstep
    split at hstep
    · cases hstep
      exact h
    split at hstep
    · cases hstep
    split at hstep
    · cases hstep
      exact h.frame s.disk _ s.started _ s.windowFocuses
    · cases hstep
      exact h
  | watchRediscovered adds =>
    rw [WatchSets.step] at hstep
    obtain ⟨projects, -, rfl⟩ := Option.map_eq_some_iff.mp hstep
    exact (h.frame s.disk s.cached s.started none s.windowFocuses).syncWatches _ _ _

/-- Both synchronisations. -/
theorem synced_syncWatches (workspacePaths : List Path) (projects : List ListedProject) (adds : AddResults) :
    let t := s.syncWatches getSourceType allSourceTypes workspacePaths projects adds
    (t.workspacePaths = workspacePaths ∧ t.listed = projects ∧ ∀ path ∈ t.baseFailed, adds.base path = false) ∧
      t.focused = t.focusPaths getSourceType allSourceTypes ∧ ∀ path ∈ t.dynamicFailed, adds.dynamic path = false :=
  ⟨⟨rfl, rfl, fun _ => SharedSets.addOk_of_mem_sync_failed⟩, rfl, fun _ => SharedSets.addOk_of_mem_sync_failed⟩

/-- The synchronisation of the focuses alone. -/
theorem synced_syncDynamicWatches (addOk : Path → Bool) :
    let t := s.syncDynamicWatches getSourceType allSourceTypes addOk
    t.focused = t.focusPaths getSourceType allSourceTypes ∧ ∀ path ∈ t.dynamicFailed, addOk path = false :=
  ⟨rfl, fun _ => SharedSets.addOk_of_mem_sync_failed⟩

/-- An operation that calls both. -/
theorem Synced.of_syncWatches {op : WatchOp} {t u : WatchSets} {workspacePaths : List Path}
    {projects : List ListedProject} {adds : AddResults} (hbase : s.baseSync op = some (workspacePaths, projects, adds.base))
    (hfocus : s.focusSync op = some adds.dynamic)
    (ht : u.syncWatches getSourceType allSourceTypes workspacePaths projects adds = t) :
    s.Synced getSourceType allSourceTypes op t := by
  subst ht
  have h := @synced_syncWatches getSourceType allSourceTypes u workspacePaths projects adds
  constructor
  · intro _ _ _ heq
    cases hbase.symm.trans heq
    exact h.1
  · exact fun hnone => absurd (hbase.symm.trans hnone) (by simp)
  · intro _ heq
    cases hfocus.symm.trans heq
    exact h.2
  · exact fun hnone => absurd (hfocus.symm.trans hnone) (by simp)

/-- An operation that leaves the base alone. -/
theorem Synced.of_syncDynamicWatches {op : WatchOp} {t u : WatchSets} {addOk : Path → Bool}
    (hbase : s.baseSync op = none) (hfocus : s.focusSync op = some addOk)
    (ht : u.syncDynamicWatches getSourceType allSourceTypes addOk = t)
    (hu : u.workspacePaths = s.workspacePaths ∧ u.listed = s.listed ∧ u.baseFailed = s.baseFailed) :
    s.Synced getSourceType allSourceTypes op t := by
  subst ht
  constructor
  · exact fun _ _ _ heq => absurd (hbase.symm.trans heq) (by simp)
  · exact fun _ => hu
  · intro _ heq
    cases hfocus.symm.trans heq
    exact synced_syncDynamicWatches addOk
  · exact fun hnone => absurd (hfocus.symm.trans hnone) (by simp)

/-- An operation that calls neither. -/
theorem Synced.of_none {op : WatchOp} {t : WatchSets} (hbase : s.baseSync op = none) (hfocus : s.focusSync op = none)
    (ht : t.workspacePaths = s.workspacePaths ∧ t.listed = s.listed ∧ t.baseFailed = s.baseFailed ∧
      t.focused = s.focused ∧ t.dynamicFailed = s.dynamicFailed) : s.Synced getSourceType allSourceTypes op t := by
  constructor
  · exact fun _ _ _ heq => absurd (hbase.symm.trans heq) (by simp)
  · exact fun _ => ⟨ht.1, ht.2.1, ht.2.2.1⟩
  · exact fun _ heq => absurd (hfocus.symm.trans heq) (by simp)
  · exact fun _ => ht.2.2.2

theorem synced_step {op : WatchOp} {t : WatchSets} (hstep : s.step getSourceType allSourceTypes op = some t) :
    s.Synced getSourceType allSourceTypes op t := by
  -- both ways to set a focus end in `setWindowFocus`
  have hsetFocus : ∀ (windowID : Text) (target : FocusTarget) (addOk : Path → Bool), s.baseSync op = none →
      s.focusSync op = (if s.windowFocuses.lookup windowID = some target then none else some addOk) →
      s.setWindowFocus getSourceType allSourceTypes windowID target addOk = t →
      s.Synced getSourceType allSourceTypes op t := by
    intro windowID target addOk hbase hfocus ht
    rw [WatchSets.setWindowFocus] at ht
    split at ht
    case isTrue hsame =>
      rw [if_pos hsame] at hfocus
      subst ht
      exact .of_none hbase hfocus ⟨rfl, rfl, rfl, rfl, rfl⟩
    case isFalse hother =>
      rw [if_neg hother] at hfocus
      exact .of_syncDynamicWatches hbase hfocus ht ⟨rfl, rfl, rfl⟩
  cases op with
  | changeDisk | changeProjects =>
    cases hstep
    exact .of_none rfl rfl ⟨rfl, rfl, rfl, rfl, rfl⟩
  | start | refresh =>
    cases hstep
    exact .of_syncWatches rfl rfl rfl
  | setWindowFocusProject | setWindowFocusFile =>
    exact hsetFocus _ _ _ rfl rfl (Option.some.inj hstep)
  | clearWindowFocus windowID addOk =>
    simp only [WatchSets.step, Option.isNone_iff_eq_none] at hstep
    split at hstep
    case isTrue hnone =>
      cases hstep
      exact .of_none rfl (if_pos hnone) ⟨rfl, rfl, rfl, rfl, rfl⟩
    case isFalse hsome =>
      exact .of_syncDynamicWatches rfl (if_neg hsome) (Option.some.inj hstep) ⟨rfl, rfl, rfl⟩
  | clearAllFocus addOk =>
    exact .of_syncDynamicWatches rfl rfl (Option.some.inj hstep) ⟨rfl, rfl, rfl⟩
  | rediscoverProjects result =>
    simp only [WatchSets.step] at hstep
    split at hstep
    · cases hstep
      exact .of_none rfl rfl ⟨rfl, rfl, rfl, rfl, rfl⟩
    split at hstep
    · cases hstep
    split at hstep <;>
    · cases hstep
      exact .of_none rfl rfl ⟨rfl, rfl, rfl, rfl, rfl⟩
  | watchRediscovered adds =>
    rw [WatchSets.step] at hstep
    obtain ⟨projects, hfound, ht⟩ := Option.map_eq_some_iff.mp hstep
    exact .of_syncWatches (by rw [baseSync, hfound, Option.map_some]) rfl ht

/-- In every run of a new watcher the two sets are consistent with what is registered, and every operation leaves them with
what it was asked for. -/
theorem run_consistent (disk : Disk) (cached : List ListedProject) {ops : List WatchOp}
    (hrun : run (WatchSets.step getSourceType allSourceTypes) { disk, cached } ops = some s) :
    s.Consistent ∧ ∀ op t, s.step getSourceType allSourceTypes op = some t → s.Synced getSourceType allSourceTypes op t := by
  have hnew : WatchSets.Consistent { disk, cached } := by
    refine ⟨fun path => ?_, ?_, ?_, ?_⟩
    · simp
    · exact fun path hpath => absurd hpath List.not_mem_nil
    · exact fun path hpath => absurd hpath List.not_mem_nil
    · exact fun r hr => absurd hr List.not_mem_nil
  exact ⟨run_invariant (fun s op t hs => hs.step) hnew hrun, fun op t => synced_step⟩

/-- A window needs a directory that is no longer listed, and the `Add` of another one has failed. -/
theorem run_consistent_shared :
    ∃ s : WatchSets,
      run (WatchSets.step (fun _ => none) [])
        { disk := Watch.nestedDisk, cached := [Watch.treeProject ['w'] [['w']] []] }
        [.start [] ⟨fun _ => true, fun _ => true⟩,
          .setWindowFocusProject [] ['w'] fun path => path ≠ [['w'], ['q']],
          .refresh [] [] ⟨fun _ => true, fun _ => false⟩] = some s ∧
      (s.registered = [[['w'], ['p']], [['w']]] ∧ s.baseWatched = [] ∧ s.dynamicFailed = [[['w'], ['q']]]) ∧
      s.Consistent := by
  obtain ⟨s, hrun, hs⟩ : ∃ s, run (WatchSets.step (fun _ => none) [])
        { disk := Watch.nestedDisk, cached := [Watch.treeProject ['w'] [['w']] []] }
        [.start [] ⟨fun _ => true, fun _ => true⟩,
          .setWindowFocusProject [] ['w'] fun path => path ≠ [['w'], ['q']],
          .refresh [] [] ⟨fun _ => true, fun _ => false⟩] = some s ∧
      decide (s.registered = [[['w'], ['p']], [['w']]] ∧ s.baseWatched = [] ∧
        s.dynamicFailed = [[['w'], ['q']]]) = true :=
    exists_run_of_any (by decide)
  exact ⟨s, hrun, of_decide_eq_true hs, (run_consistent _ _ hrun).1⟩

end WatchSets

end Builderbot.Penpal
